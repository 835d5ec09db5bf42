import Easycom.Conversation

/-!
# Easycom — DeviceLink

A host and a device, connected by two byte queues. The device feeds every
byte to a `CommandParser`; for each command it obtains it may echo the
frame, and then sends a response. All of this happens before the next read
of the host: a `Link` is a transport, so that `Session` runs on it as it
is.

Between two exchanges the link is quiet (`Quiet`): no byte is in a queue
or in a parser. One exchange leads from a quiet link to a quiet link
(`exchange_agrees`), and so does a conversation (`conversation_agrees`).
-/

namespace Easycom

open Rust Stream

/-! ## The device -/

/-- A device with its `CommandParser`, the bytes of the frame it is
receiving, the commands obtained so far, and its script: for each command
still to come, whether it is echoed, and the response. -/
structure Device where
  parser : CommandParser
  frame : List UInt8
  obtained : List Command
  script : List (Bool × Response)
  deriving DecidableEq

namespace Device

def new (script : List (Bool × Response)) : Device := ⟨CommandParser.new, [], [], script⟩

/-- What the device sends for a command: the echo, and the response. -/
def answer (self : Device) (cmd : Command) : Exec (List UInt8 × Device) :=
  match self.script with
  | [] => .ok ([], { self with obtained := self.obtained ++ [cmd] })
  | (echoed, r) :: script => do
      let sent ← r.sent (List.replicate 32 0)
      return ((if echoed then self.frame else []) ++ sent,
        { self with obtained := self.obtained ++ [cmd], script })

/-- One byte from the host: what the device sends for it. -/
def receive (self : Device) (b : UInt8) : Exec (List UInt8 × Device) := do
  let (cmd, parser) ← self.parser.feed b
  let self := { self with parser, frame := self.frame ++ [b] }
  let (out, self) ← match cmd with
    | some cmd => self.answer cmd
    | none => pure ([], self)
  return (out, { self with frame := if isTerminator b then [] else self.frame })

def receiveAll (self : Device) : List UInt8 → Exec (List UInt8 × Device)
  | [] => .ok ([], self)
  | b :: bs => do
      let (out, self) ← self.receive b
      let (outs, self) ← self.receiveAll bs
      return (out ++ outs, self)

end Device

/-! ## The link -/

/-- A device, the bytes on their way to it, and those on their way back. -/
structure Link where
  device : Device
  toDevice : List UInt8
  toHost : List UInt8
  deriving DecidableEq

/-- The device handles what has arrived before a read; its panic is an
error of the read. -/
instance : Transport Link Panic where
  write self frame := (.ok (), { self with toDevice := self.toDevice ++ frame })
  read self buf :=
    match self.device.receiveAll self.toDevice with
    | .error p => ((.error p, buf), self)
    | .ok (out, device) =>
        match self.toHost ++ out, buf with
        | b :: toHost, _ :: buf => ((.ok 1, b :: buf), ⟨device, [], toHost⟩)
        | toHost, buf => ((.ok 0, buf), ⟨device, [], toHost⟩)
  read_length self buf := by
    split
    · rfl
    · split <;> rfl

def Link.new (script : List (Bool × Response)) : Link := ⟨Device.new script, [], []⟩

/-- What the device sends is delivered, once it has handled its bytes. -/
theorem Link.delivers {device device' : Device} {arrived out : List UInt8}
    (h : device.receiveAll arrived = .ok (out, device')) (hne : out ≠ []) :
    Delivers (⟨device, arrived, []⟩ : Link) out ⟨device', [], []⟩ := by
  have hdrained : ∀ bs : List UInt8,
      Delivers (⟨device', [], bs⟩ : Link) bs ⟨device', [], []⟩ := by
    intro bs
    induction bs with
    | nil => exact .nil _
    | cons b bs ih =>
        refine .cons (fun buf hbuf => ?_) ih
        obtain ⟨x, rfl⟩ := List.length_eq_one_iff.mp hbuf
        refine ⟨0, ?_⟩
        simp [Transport.read, Device.receiveAll]
  cases out with
  | nil => exact absurd rfl hne
  | cons b out =>
      refine .cons (fun buf hbuf => ?_) (hdrained out)
      obtain ⟨x, rfl⟩ := List.length_eq_one_iff.mp hbuf
      refine ⟨0, ?_⟩
      simp [Transport.read, h]

/-! ## One command at the device -/

/-- The unfinished line of a device: its parser and its frame hold it. -/
structure Device.Holds (d : Device) (l : List UInt8) : Prop where
  parser : d.parser.Holds l
  frame : d.frame = l

theorem Device.receive_open {self : Device} {l : List UInt8} (h : self.Holds l) {b : UInt8}
    (hb : isTerminator b = false) (hlt : l.length < maxCmdFrame) :
    Returns (self.receive b) fun r => r.1 = [] ∧ r.2.Holds (l ++ [b]) ∧
      r.2.obtained = self.obtained ∧ r.2.script = self.script := by
  obtain ⟨⟨cmd, parser⟩, hfeed, hcmd, hholds⟩ := CommandParser.feed_returns h.parser b
  rw [step_quiet hb hlt] at hcmd hholds
  simp only at hcmd hholds
  subst hcmd
  rw [Device.receive, hfeed]
  exact ⟨_, rfl, rfl, ⟨hholds, by simp [hb, h.frame]⟩, rfl, rfl⟩

theorem Device.receive_line {self : Device} {l : List UInt8} (h : self.Holds l) {b : UInt8}
    (hb : isTerminator b = true) {c : Command} (hc : readCommand l = some c)
    {echoed : Bool} {r : Response} {script : List (Bool × Response)}
    (hscript : self.script = (echoed, r) :: script) :
    Returns (self.receive b) fun out =>
      out.1 = (if echoed then l ++ [b] else []) ++ r.frame ∧ out.2.Holds [] ∧
      out.2.obtained = self.obtained ++ [c] ∧ out.2.script = script := by
  obtain ⟨⟨cmd, parser⟩, hfeed, hcmd, hholds⟩ := CommandParser.feed_returns h.parser b
  rw [step_line hb] at hcmd hholds
  simp only [commandEvent, hc] at hcmd hholds
  subst hcmd
  have hsent : r.sent (List.replicate 32 0) = .ok r.frame := Response.sent_eq (by decide)
  rw [Device.receive, hfeed]
  simp only [ok_bind, Device.answer, hscript, hsent]
  exact ⟨_, rfl, by rw [h.frame], ⟨hholds, by simp [hb]⟩, rfl, rfl⟩

/-- **A command frame at the device**: the command is obtained, and its
script answers. -/
theorem Device.receiveAll_frame {self : Device} {l L : List UInt8} (h : self.Holds l)
    (hL : Open isTerminator L) (hfits : l.length + L.length ≤ maxCmdFrame) {b : UInt8}
    (hb : isTerminator b = true) {c : Command} (hc : readCommand (l ++ L) = some c)
    {echoed : Bool} {r : Response} {script : List (Bool × Response)}
    (hscript : self.script = (echoed, r) :: script) :
    Returns (self.receiveAll (L ++ [b])) fun out =>
      out.1 = (if echoed then l ++ L ++ [b] else []) ++ r.frame ∧ out.2.Holds [] ∧
      out.2.obtained = self.obtained ++ [c] ∧ out.2.script = script := by
  induction L generalizing self l with
  | nil =>
      rw [List.append_nil] at hc ⊢
      refine (receive_line h hb hc hscript).bind fun out hout => ?_
      exact ⟨_, rfl, by rw [List.append_nil]; exact hout.1, hout.2⟩
  | cons a L ih =>
      obtain ⟨ha, hL⟩ := open_cons.mp hL
      rw [List.append_cons l a L] at hc ⊢
      rw [List.length_cons] at hfits
      refine (receive_open h ha (by omega)).bind fun out hout => ?_
      obtain ⟨hnone, hholds, hobtained, hscript'⟩ := hout
      have hrest := ih hholds hL
        (by rw [List.length_append, List.length_singleton]; omega) hc (hscript'.trans hscript)
      refine hrest.bind fun out' hout' => ?_
      rw [hobtained] at hout'
      exact ⟨_, rfl, by rw [hnone, List.nil_append]; exact hout'.1, hout'.2⟩

/-! ## Conversations -/

/-- No byte is in a queue, in a parser, or in the frame of the device. -/
structure Session.Quiet (s : Session Link) : Prop where
  toDevice : s.transport.toDevice = []
  toHost : s.transport.toHost = []
  device : s.transport.device.parser.len = 0
  frame : s.transport.device.frame = []
  parser : s.parser.len = 0

/-- A command, the response to it, and whether it is echoed before. -/
structure Exchange where
  command : Command
  response : Response
  echoed : Bool

/-- Both can be encoded, and the response is no echo of the command. -/
structure Exchange.Valid (x : Exchange) : Prop where
  accepted : x.command.Accepted
  offsets : x.command.OffsetsFit
  inRange : x.response.InRange
  noEcho : ¬ (x.command = .keepAlive ∧ x.response = .error)

/-- **One exchange leads from a quiet link to a quiet link**, with the
command at the device and the response at the host. -/
theorem exchange_agrees {x : Exchange} (hx : x.Valid) {s : Session Link} (hs : s.Quiet)
    {script : List (Bool × Response)}
    (hscript : s.transport.device.script = (x.echoed, x.response) :: script) :
    ∃ s', s.Sends x.command (.ok x.response) s' ∧ s'.Quiet ∧
      s'.transport.device.obtained = s.transport.device.obtained ++ [x.command.received] ∧
      s'.transport.device.script = script := by
  obtain ⟨⟨device, toDevice, toHost⟩, parser⟩ := s
  obtain ⟨rfl, rfl, hdevice, hframe, hparser⟩ := hs
  simp only at hdevice hframe hparser hscript
  have hlen := x.command.payload_length_le
  have hread := readCommand_payload hx.accepted hx.offsets
  obtain ⟨⟨out, device'⟩, hrecv, hout, hholds, hobtained, hscript'⟩ :=
    Device.receiveAll_frame (l := []) ⟨holds_nil_iff.mpr hdevice, hframe⟩
      x.command.payload_plain.is_open (by rw [List.length_nil, maxCmdFrame]; omega)
      (show isTerminator (byte '\r') = true by decide) hread hscript
  simp only at hout hobtained hscript'
  have hreply : out = ((if x.echoed then [byte '\r'] else []).flatMap
      fun b => x.command.payload ++ [b]) ++ x.response.frame := by
    rw [hout]
    cases x.echoed <;> simp
  have hne : out ≠ [] := by
    rw [hreply]
    simp [Response.frame]
  have hd := Link.delivers hrecv hne
  rw [hreply] at hd
  obtain ⟨s', hsends, ht, hp⟩ := sends_answer hx.accepted hx.inRange hx.noEcho
    (⟨⟨device, [], []⟩, parser⟩ : Session Link) (holds_nil_iff.mpr hparser)
    (if x.echoed then [byte '\r'] else []) (by split <;> simp [isTerminator]) rfl hd
  refine ⟨s', hsends, ⟨?_, ?_, ?_, ?_, holds_nil_iff.mp hp⟩, ?_, ?_⟩
  all_goals rw [ht]
  · exact holds_nil_iff.mp hholds.parser
  · exact hholds.frame
  · exact hobtained
  · exact hscript'

theorem conversation_run {xs : List Exchange} (hvalid : ∀ x ∈ xs, x.Valid)
    {s : Session Link} (hs : s.Quiet) {script : List (Bool × Response)}
    (hscript : s.transport.device.script
      = (xs.map fun x => (x.echoed, x.response)) ++ script) :
    ∃ s', SendAll s (xs.map fun x => (x.command, .ok x.response)) s' ∧ s'.Quiet ∧
      s'.transport.device.obtained
        = s.transport.device.obtained ++ xs.map fun x => x.command.received := by
  induction xs generalizing s with
  | nil => exact ⟨s, .nil s, hs, by simp⟩
  | cons x xs ih =>
      obtain ⟨s₁, hsend, hs₁, hobtained₁, hscript₁⟩ :=
        exchange_agrees (hvalid x (by simp)) hs hscript
      obtain ⟨s', hrest, hs', hobtained⟩ :=
        ih (fun y hy => hvalid y (by simp [hy])) hs₁ hscript₁
      refine ⟨s', .cons hsend hrest, hs', ?_⟩
      rw [hobtained, hobtained₁, List.map_cons, List.append_assoc]
      rfl

/-- **Whole conversations agree on both sides.** After any number `k` of
exchanges, each of the first `k` sends has returned its response, the
device has obtained the first `k` commands, and no byte is left over in a
queue or in a parser. -/
theorem conversation_agrees (xs : List Exchange) (hvalid : ∀ x ∈ xs, x.Valid) (k : Nat) :
    ∃ s', SendAll (Session.new (Link.new (xs.map fun x => (x.echoed, x.response))))
        ((xs.take k).map fun x => (x.command, .ok x.response)) s' ∧ s'.Quiet ∧
      s'.transport.device.obtained = (xs.take k).map fun x => x.command.received := by
  have hscript : xs.map (fun x => (x.echoed, x.response))
      = ((xs.take k).map fun x => (x.echoed, x.response))
        ++ (xs.drop k).map fun x => (x.echoed, x.response) := by
    rw [← List.map_append, List.take_append_drop]
  exact conversation_run (fun x hx => hvalid x (List.mem_of_mem_take hx))
    ⟨rfl, rfl, rfl, rfl, rfl⟩ hscript

/-- A register that answers like its query, and a stop that is echoed. -/
theorem conversation_agrees_two :
    ∃ s', SendAll (Session.new (Link.new [(true, .statusRegister 3), (true, .ack)]))
        [(.queryStatus, .ok (.statusRegister 3)), (.stop, .ok .ack)] s' ∧ s'.Quiet ∧
      s'.transport.device.obtained = [.getStatusRegister, .stop] :=
  conversation_agrees [⟨.queryStatus, .statusRegister 3, true⟩, ⟨.stop, .ack, true⟩]
    (by
      intro x hx
      simp only [List.mem_cons, List.not_mem_nil, or_false] at hx
      rcases hx with rfl | rfl
      · exact ⟨trivial, trivial, trivial, by decide⟩
      · exact ⟨trivial, trivial, trivial, by decide⟩) 2

end Easycom
