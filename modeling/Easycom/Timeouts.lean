import Easycom.CommandEcho
import Easycom.SessionRecord
import Easycom.Stream.Steps
import Easycom.System

/-!
# Easycom — Timeouts

The world of `System` with a host whose reads may give up while nothing has
arrived (`LateStep`): a send times out, the next one is written while the
answer to the last is still on its way, and reads that one. The results
then belong to other commands, but each of them is a response the device
has sent, in its order and once (`late_answers`), and the device obtains
every command once.
-/

namespace Easycom

open Rust Stream

/-! ## Steps -/

/-- A step, or a read that gives up. -/
inductive World.LateStep : World → World → Prop where
  | step {w w' : World} (h : w.Step w') : LateStep w w'
  | timeout {cmd frameBuf len} {st : RecvState Port} {device inFlight todo results r session}
      (hempty : st.session.transport.arrived = [])
      (h : recvStep frameBuf len st = .ok (.inr (r, session))) :
      LateStep ⟨.receiving cmd frameBuf len st, device, inFlight, todo, results⟩
        ⟨.idle session, device, inFlight, todo, results ++ [(cmd, r)]⟩

/-! ## The device -/

/-- What a device sends for the frame `frame` by the head of its script. -/
def scripted (frame : List UInt8) (script : List (Bool × Response)) : List UInt8 :=
  script.head?.elim [] fun x => (if x.1 then frame else []) ++ x.2.frame

/-- What a device sends for commands. -/
def answersTo (script : List (Bool × Response)) : List Command → List UInt8
  | [] => []
  | c :: cs => scripted (c.payload ++ [byte '\r']) script ++ answersTo script.tail cs

theorem answersTo_snoc (script : List (Bool × Response)) (cs : List Command) (c : Command) :
    answersTo script (cs ++ [c]) = answersTo script cs ++
      scripted (c.payload ++ [byte '\r']) (script.drop cs.length) := by
  induction cs generalizing script with
  | nil => simp [answersTo]
  | cons d cs ih =>
      rw [List.cons_append, answersTo, ih, answersTo, List.length_cons, ← List.drop_tail,
        List.append_assoc]

/-- The frames of commands, one after the other. -/
def framesOf (cs : List Command) : List UInt8 := cs.flatMap fun c => c.payload ++ [byte '\r']

/-- A device that has been sent `cs`, with `toDevice` still to handle: it
has obtained the first of them and has sent `out`. -/
def Device.Late (script : List (Bool × Response)) (cs : List Command) (d : Device)
    (toDevice out : List UInt8) : Prop :=
  ∃ done rest u, cs = done ++ rest ∧ Open isTerminator u ∧ u ++ toDevice = framesOf rest ∧
    d.Holds u ∧ d.obtained = done.map Command.received ∧
    d.script = script.drop done.length ∧ out = answersTo script done

/-- A line that spells a command, whatever is left of the script. -/
theorem Device.receive_command {self : Device} {l : List UInt8} (h : self.Holds l) {b : UInt8}
    (hb : isTerminator b = true) {c : Command} (hc : readCommand l = some c) :
    Returns (self.receive b) fun out =>
      out.1 = scripted (l ++ [b]) self.script ∧ out.2.Holds [] ∧
      out.2.obtained = self.obtained ++ [c] ∧ out.2.script = self.script.tail := by
  cases hscript : self.script with
  | cons x script =>
      obtain ⟨echoed, r⟩ := x
      exact receive_line h hb hc hscript
  | nil =>
      obtain ⟨⟨cmd, parser⟩, hfeed, hcmd, hholds⟩ := CommandParser.feed_returns h.parser b
      rw [step_line hb] at hcmd hholds
      simp only [commandEvent, hc] at hcmd hholds
      subst hcmd
      rw [Device.receive, hfeed]
      simp only [ok_bind, Device.answer, hscript]
      exact ⟨_, rfl, rfl, ⟨hholds, by simp [hb]⟩, rfl, rfl⟩

/-- **One byte at the device.** -/
theorem Device.Late.receive {script : List (Bool × Response)} {cs : List Command} {d d' : Device}
    {b : UInt8} {bytes out out' : List UInt8} (hacc : ∀ c ∈ cs, c.Accepted)
    (hoff : ∀ c ∈ cs, c.OffsetsFit) (h : d.Late script cs (b :: bytes) out)
    (hrecv : d.receive b = .ok (out', d')) : d'.Late script cs bytes (out ++ out') := by
  obtain ⟨done, rest, u, rfl, hu, hstream, hholds, hobtained, hscript, rfl⟩ := h
  cases rest with
  | nil => simp [framesOf] at hstream
  | cons c rest =>
      rw [framesOf, List.flatMap_cons, List.append_assoc] at hstream
      rcases line_split hu c.payload_plain.is_open (show isTerminator (byte '\r') = true by decide)
        hstream with ⟨hb, rfl, rfl, rfl⟩ | ⟨hb, l', hl', rfl⟩
      · -- the frame is complete
        have hread := readCommand_payload (hacc c (by simp)) (hoff c (by simp))
        have hlast := (receive_command hholds hb hread).of_eq hrecv
        obtain ⟨rfl, hholds', hobtained', hscript'⟩ := hlast
        refine ⟨done ++ [c], rest, [], by simp, open_nil, rfl, hholds', ?_, ?_, ?_⟩
        · rw [hobtained', hobtained, List.map_append]
          rfl
        · rw [hscript', hscript, List.tail_drop, List.length_append]
          rfl
        · rw [answersTo_snoc, hscript]
      · have hlen := c.payload_length_le
        rw [hl', List.length_append, List.length_cons] at hlen
        have hopen := (receive_open hholds hb (by rw [maxCmdFrame]; omega)).of_eq hrecv
        obtain ⟨rfl, hholds', hobtained', hscript'⟩ := hopen
        refine ⟨done, c :: rest, u ++ [b], rfl, hu.append (open_cons.mpr ⟨hb, open_nil⟩), ?_,
          hholds', hobtained'.trans hobtained, hscript'.trans hscript, List.append_nil _⟩
        rw [framesOf, List.flatMap_cons, hl']
        simp

/-- One more frame is written. -/
theorem Device.Late.send {script : List (Bool × Response)} {cs : List Command} {d : Device}
    {toDevice out : List UInt8} (h : d.Late script cs toDevice out) (c : Command) :
    d.Late script (cs ++ [c]) (toDevice ++ (c.payload ++ [byte '\r'])) out := by
  obtain ⟨done, rest, u, rfl, hu, hstream, hrest⟩ := h
  refine ⟨done, rest ++ [c], u, by simp, hu, ?_, hrest⟩
  rw [← List.append_assoc, hstream, framesOf, framesOf, List.flatMap_append]
  simp

/-! ## The host -/

/-- The host has read the bytes `consumed`. -/
inductive Host.Consumed (consumed : List UInt8) : Host → Prop where
  | idle {session : Session Port}
      (h : session.parser.Holds (run isTerminator maxFrame [] consumed).2) :
      (Host.idle session).Consumed consumed
  | receiving {host : Host} {cmd : Command} {a : Listener Port} (hhost : host.Receives cmd a)
      (h : a.pending = (run isTerminator maxFrame [] consumed).2) : host.Consumed consumed

theorem Host.Consumed.setPort {consumed : List UInt8} {host : Host} (h : host.Consumed consumed)
    (port : Port) : (host.setPort port).Consumed consumed := by
  cases h with
  | idle h => exact .idle h
  | receiving hhost h => exact .receiving (hhost.setPort port) h

@[simp] theorem Host.port_setPort (host : Host) (port : Port) :
    (host.setPort port).port = port := by
  cases host <;> rfl

/-- What a read leaves in the parser, whatever the byte. -/
theorem pending_snoc (s : List UInt8) (b : UInt8) :
    (run isTerminator maxFrame [] (s ++ [b])).2
      = (Stream.step isTerminator maxFrame (run isTerminator maxFrame [] s).2 b).2 := by
  rw [run_append, run_singleton]

/-- The host goes on reading: one more byte is consumed. -/
theorem Host.Consumed.read {consumed frameBuf arrived : List UInt8} {cmd : Command} {len : Nat}
    {st st' : RecvState Port} {b : UInt8}
    (h : (Host.receiving cmd frameBuf len st).Consumed consumed)
    (harrived : st.session.transport.arrived = b :: arrived)
    (hrecv : recvStep frameBuf len st = .ok (.inl st')) :
    (Host.receiving cmd frameBuf len st').Consumed (consumed ++ [b]) ∧
      st'.session.transport = { st.session.transport with arrived } := by
  cases h with
  | @receiving _ _ a hhost h =>
      have hport : st.session.transport = a.transport := hhost.port
      rw [hport] at harrived ⊢
      obtain ⟨⟨rfl, rfl, hsent⟩, hbyte, hrel⟩ := hhost.recvStep
      have hnext := hrel.of_eq hrecv
      have hpending := pending_snoc consumed b
      rw [Listener.step_arrived hbyte harrived] at hnext
      by_cases hb : isTerminator b = true
      · rw [step_line hb] at hpending
        rw [if_pos hb] at hnext
        split at hnext
        · cases hnext with
          | inl hears => exact ⟨.receiving (.mk hsent hears) hpending.symm, hears.transport⟩
        · cases hnext
      · rw [if_neg hb, h] at hnext
        cases hnext with
        | inl hears => exact ⟨.receiving (.mk hsent hears) hpending.symm, hears.transport⟩

/-- The host has a result: it is the reading of the line that the byte
ends. -/
theorem Host.Consumed.answer {consumed frameBuf arrived : List UInt8} {cmd : Command} {len : Nat}
    {st : RecvState Port} {b : UInt8} {r : Except (Error Empty) Response}
    {session : Session Port} (h : (Host.receiving cmd frameBuf len st).Consumed consumed)
    (harrived : st.session.transport.arrived = b :: arrived)
    (hrecv : recvStep frameBuf len st = .ok (.inr (r, session))) :
    (Host.idle session).Consumed (consumed ++ [b]) ∧
      session.transport = { st.session.transport with arrived } ∧
      readings (consumed ++ [b]) = readings consumed ++ (lineOf r).toList := by
  cases h with
  | @receiving _ _ a hhost h =>
      have hport : st.session.transport = a.transport := hhost.port
      rw [hport] at harrived ⊢
      obtain ⟨-, hbyte, hrel⟩ := hhost.recvStep
      have hnext := hrel.of_eq hrecv
      have hpending := pending_snoc consumed b
      have hreadings := readings_snoc consumed b
      rw [Listener.step_arrived hbyte harrived] at hnext
      by_cases hb : isTerminator b = true
      · rw [step_line hb] at hpending
        rw [if_pos hb] at hnext hreadings
        split at hnext
        · cases hnext
        · cases hnext with
          | inr hret =>
              have hresult : r = (readResponse a.pending).mapError .parse := hret.result
              refine ⟨.idle (hpending.symm ▸ hret.parser), hret.transport, ?_⟩
              rw [hreadings, hresult, lineOf_mapError, h]
              rfl
      · rw [if_neg hb] at hnext
        cases hnext

/-- A read that gives up consumes nothing. -/
theorem Host.Consumed.timeout {consumed frameBuf : List UInt8} {cmd : Command} {len : Nat}
    {st : RecvState Port} {r : Except (Error Empty) Response} {session : Session Port}
    (h : (Host.receiving cmd frameBuf len st).Consumed consumed)
    (hempty : st.session.transport.arrived = [])
    (hrecv : recvStep frameBuf len st = .ok (.inr (r, session))) :
    (Host.idle session).Consumed consumed ∧ session.transport = st.session.transport ∧
      r = .error .timeout := by
  cases h with
  | @receiving _ _ a hhost h =>
      have hport : st.session.transport = a.transport := hhost.port
      rw [hport] at hempty ⊢
      obtain ⟨-, -, hrel⟩ := hhost.recvStep
      have hnext := hrel.of_eq hrecv
      have hread : Transport.read a.transport a.byte = ((.ok 0, a.byte), a.transport) := by
        simp only [Transport.read, hempty]
      rw [Listener.step, hread] at hnext
      cases hnext with
      | inr hret => exact ⟨.idle (h ▸ hret.parser), hret.transport, hret.result⟩

/-! ## The world -/

/-- The commands `begun` have been taken up, and `consumed` has been read
of what the device sent for those it has obtained. -/
structure World.Sound (script : List (Bool × Response)) (cmds : List Command) (w : World)
    (begun : List Command) (consumed : List UInt8) : Prop where
  cmds_eq : cmds = begun ++ w.todo
  host : w.host.Consumed consumed
  device : w.device.Late script (begun.filter (·.Accepted)) w.host.port.toDevice
    (consumed ++ w.host.port.arrived ++ w.inFlight)
  results : (w.results.filterMap fun x => lineOf x.2).Sublist (readings consumed)

variable {script : List (Bool × Response)} {cmds begun : List Command} {consumed : List UInt8}
  {w w' : World}

/-- The next send is written, or refused. -/
theorem World.Sound.send {session : Session Port} {device : Device} {inFlight : List UInt8}
    {cmd : Command} {todo : List Command} {results : List (Command × Except (Error Empty) Response)}
    {out : Sent Port Empty ⊕ List UInt8 × Nat × RecvState Port}
    (h : World.Sound script cmds ⟨.idle session, device, inFlight, cmd :: todo, results⟩
      begun consumed) (hsend : session.sendHead cmd = .ok out) :
    (∃ frameBuf len st, out = .inr (frameBuf, len, st) ∧
      World.Sound script cmds ⟨.receiving cmd frameBuf len st, device, inFlight, todo, results⟩
        (begun ++ [cmd]) consumed) ∨
    (∃ r, out = .inl (r, session) ∧
      World.Sound script cmds ⟨.idle session, device, inFlight, todo, results ++ [(cmd, r)]⟩
        (begun ++ [cmd]) consumed) := by
  obtain ⟨hcmds, hhost, hdevice, hresults⟩ := h
  have hcmds' : cmds = (begun ++ [cmd]) ++ todo := by rw [hcmds]; simp
  have hparser : session.parser.Holds (run isTerminator maxFrame [] consumed).2 := by
    cases hhost with
    | idle h => exact h
    | receiving hhost => cases hhost
  by_cases hc : cmd.Accepted
  · obtain ⟨frameBuf, st, hhead, hsent, hears⟩ :=
      Session.sendHead_accepted hc (s := session)
        (t := { session.transport with
          toDevice := session.transport.toDevice ++ (cmd.payload ++ [byte '\r']) }) rfl hparser
    cases hhead.symm.trans hsend
    refine .inl ⟨_, _, _, rfl, hcmds', .receiving (.mk hsent hears) rfl, ?_, hresults⟩
    have hport : (Host.receiving cmd frameBuf (cmd.payload.length + 1) st).port
        = { session.transport with
          toDevice := session.transport.toDevice ++ (cmd.payload ++ [byte '\r']) } :=
      hears.transport
    rw [List.filter_append, show [cmd].filter (·.Accepted) = [cmd] by simp [hc], hport]
    exact hdevice.send cmd
  · obtain ⟨msg, hhead⟩ := Session.sendHead_rejected hc session
    cases hhead.symm.trans hsend
    refine .inr ⟨_, rfl, hcmds', .idle hparser, ?_, ?_⟩
    · rw [List.filter_append, show [cmd].filter (·.Accepted) = [] by simp [hc], List.append_nil]
      exact hdevice
    · rw [List.filterMap_append]
      simpa [lineOf] using hresults

/-- **Every step keeps the world sound.** -/
theorem World.Sound.step (hoff : ∀ c ∈ cmds, c.OffsetsFit) (h : w.Sound script cmds begun consumed)
    (hstep : w.LateStep w') : ∃ begun consumed, w'.Sound script cmds begun consumed := by
  cases hstep with
  | step hstep =>
      cases hstep with
      | send hsend =>
          obtain ⟨_, _, _, hout, hs⟩ | ⟨_, hout, -⟩ := h.send hsend
          · cases hout
            exact ⟨_, _, hs⟩
          · cases hout
      | refuse hrefuse =>
          obtain ⟨_, _, _, hout, -⟩ | ⟨_, hout, hs⟩ := h.send hrefuse
          · cases hout
          · cases hout
            exact ⟨_, _, hs⟩
      | @handle _ b bytes out device hb hrecv =>
          obtain ⟨hcmds, hhost, hdevice, hresults⟩ := h
          refine ⟨begun, consumed, hcmds, hhost.setPort _, ?_, hresults⟩
          rw [hb] at hdevice
          have hnext := hdevice.receive (fun c hc => by simpa using (List.mem_filter.mp hc).2)
            (fun c hc => hoff c (by simp [hcmds, (List.mem_filter.mp hc).1])) hrecv
          simpa using hnext
      | @arrive _ b bytes hb =>
          obtain ⟨hcmds, hhost, hdevice, hresults⟩ := h
          refine ⟨begun, consumed, hcmds, hhost.setPort _, ?_, hresults⟩
          rw [hb] at hdevice
          simpa using hdevice
      | @read cmd frameBuf len st st' device inFlight todo results hready hrecv =>
          obtain ⟨hcmds, hhost, hdevice, hresults⟩ := h
          obtain ⟨b, arrived, harrived⟩ := List.exists_cons_of_ne_nil hready
          obtain ⟨hhost', hport⟩ := hhost.read harrived hrecv
          refine ⟨begun, consumed ++ [b], hcmds, hhost', ?_,
            hresults.trans (readings_mono (List.prefix_append _ _)).sublist⟩
          show Device.Late _ _ _ st'.session.transport.toDevice
            (consumed ++ [b] ++ st'.session.transport.arrived ++ inFlight)
          rw [hport]
          simpa [Host.port, harrived] using hdevice
      | @answer cmd frameBuf len st device inFlight todo results r session hready hrecv =>
          obtain ⟨hcmds, hhost, hdevice, hresults⟩ := h
          obtain ⟨b, arrived, harrived⟩ := List.exists_cons_of_ne_nil hready
          obtain ⟨hhost', hport, hreadings⟩ := hhost.answer harrived hrecv
          refine ⟨begun, consumed ++ [b], hcmds, hhost', ?_, ?_⟩
          · show Device.Late _ _ _ session.transport.toDevice
              (consumed ++ [b] ++ session.transport.arrived ++ inFlight)
            rw [hport]
            simpa [Host.port, harrived] using hdevice
          · rw [List.filterMap_append, hreadings]
            refine hresults.append ?_
            cases hline : lineOf r <;> simp [hline]
  | @timeout cmd frameBuf len st device inFlight todo results r session hempty hrecv =>
      obtain ⟨hcmds, hhost, hdevice, hresults⟩ := h
      obtain ⟨hhost', hport, rfl⟩ := hhost.timeout hempty hrecv
      refine ⟨begun, consumed, hcmds, hhost', ?_, ?_⟩
      · show Device.Late _ _ _ session.transport.toDevice
          (consumed ++ session.transport.arrived ++ inFlight)
        rw [hport]
        exact hdevice
      · rw [List.filterMap_append]
        simpa [lineOf] using hresults

/-! ## Late answers -/

/-- The responses that a device's stream reads as are those of its script. -/
theorem readings_answersTo {script : List (Bool × Response)} {cs : List Command}
    (hin : ∀ x ∈ script, x.2.InRange)
    (hecho : ∀ x ∈ script, x.1 = true → ∀ c ∈ cs, c ≠ .keepAlive) :
    (readings (answersTo script cs)).filterMap Except.toOption
      = (script.take cs.length).map Prod.snd := by
  induction cs generalizing script with
  | nil => rfl
  | cons c cs ih =>
      cases script with
      | nil =>
          have hnil : ∀ ds : List Command, answersTo [] ds = [] := by
            intro ds
            induction ds with
            | nil => rfl
            | cons d ds ih => exact ih
          rw [hnil]
          rfl
      | cons x script =>
          obtain ⟨echoed, r⟩ := x
          have hin' : ∀ x ∈ script, x.2.InRange := fun x hx => hin x (by simp [hx])
          have hrest := ih hin' fun x hx he c hc => hecho x (by simp [hx]) he c (by simp [hc])
          have hlen := r.payload_length_le
          have hresp : ∀ s, readings (r.frame ++ s) = .ok r :: readings s := by
            intro s
            rw [Response.frame, List.append_assoc, List.singleton_append,
              readings_line r.payload_plain.is_open r.terminator_isTerminator
                (by rw [maxFrame]; omega), readResponse_payload (hin (echoed, r) (by simp))]
          rw [List.length_cons, List.take_succ_cons, List.map_cons, ← hrest, answersTo, scripted]
          cases echoed with
          | false =>
              simp only [List.head?_cons, Option.elim_some, Bool.false_eq_true, if_false,
                List.nil_append, List.tail_cons, hresp]
              rfl
          | true =>
              -- the echo is a line of its own, and no response
              have hne : c ≠ .keepAlive := hecho (true, r) (by simp) rfl c (by simp)
              have hclen := c.payload_length_le
              simp only [List.head?_cons, Option.elim_some, if_true, List.tail_cons,
                List.append_assoc, List.cons_append, List.nil_append]
              rw [readings_line c.payload_plain.is_open (by decide) (by rw [maxFrame]; omega),
                hresp, Echoes.readResponse_eq (.inl rfl) hne]
              rfl

theorem sound_start (script : List (Bool × Response)) (cmds : List Command) :
    (World.new script cmds).Sound script cmds [] [] :=
  ⟨rfl, .idle Parser.new_holds,
    ⟨[], [], [], rfl, open_nil, rfl, ⟨CommandParser.new_holds, rfl⟩, rfl, rfl, rfl⟩,
    List.Sublist.refl _⟩

/-- **Late answers stay answers.** Reads may time out whenever nothing has
arrived, so that answers are read by later sends; in any order of the steps,
the responses the host has are responses of the device, in the order in
which they were sent and none twice, and the device has obtained the first
commands that were accepted, each once. A device that echoes is not sent
keep-alives: their late echo is an answer. -/
theorem late_answers (script : List (Bool × Response)) (cmds : List Command)
    (hin : ∀ x ∈ script, x.2.InRange) (hoff : ∀ c ∈ cmds, c.OffsetsFit)
    (hecho : ∀ x ∈ script, x.1 = true → ∀ c ∈ cmds, c ≠ .keepAlive) (k : Nat) (w : World)
    (h : Steps World.LateStep (.new script cmds) k w) :
    (w.results.filterMap fun x => x.2.toOption).Sublist
        ((script.take w.device.obtained.length).map Prod.snd) ∧
      w.device.obtained <+: (cmds.filter (·.Accepted)).map Command.received := by
  have hstep : ∀ w w' : World, (∃ begun consumed, w.Sound script cmds begun consumed) →
      w.LateStep w' → ∃ begun consumed, w'.Sound script cmds begun consumed := by
    intro w w' hw hstep
    obtain ⟨begun, consumed, hw⟩ := hw
    exact hw.step hoff hstep
  obtain ⟨begun, consumed, hcmds, -, hdevice, hresults⟩ :=
    h.invariant hstep ⟨[], [], sound_start script cmds⟩
  obtain ⟨done, rest, u, hbegun, -, -, -, hobtained, -, hout⟩ := hdevice
  have hdone : done <+: cmds.filter (·.Accepted) := by
    rw [hcmds, List.filter_append, hbegun, List.append_assoc]
    exact List.prefix_append _ _
  constructor
  · have hread : readings consumed <+: readings (answersTo script done) := by
      rw [← hout, List.append_assoc]
      exact readings_mono (List.prefix_append _ _)
    have hoks := (hresults.trans hread.sublist).filterMap Except.toOption
    rw [readings_answersTo hin fun x hx he c hc =>
      hecho x hx he c (List.mem_filter.mp (hdone.subset hc)).1] at hoks
    rw [hobtained, List.length_map]
    have hlines : (w.results.filterMap fun x => lineOf x.2).filterMap Except.toOption
        = w.results.filterMap fun x => x.2.toOption := by
      rw [List.filterMap_filterMap]
      refine List.filterMap_congr fun x _ => ?_
      obtain ⟨c, r⟩ := x
      rcases r with e | r
      · cases e <;> rfl
      · rfl
    rwa [hlines] at hoks
  · rw [hobtained]
    exact hdone.map _

/-- The acknowledgement of a stop arrives after the send has timed out: the
position query reads it. -/
theorem late_answers_read_later :
    ∃ w, Steps World.LateStep (.new [(false, .ack)] [.stop, .queryPosition]) 9 w ∧
      w.results = [(.stop, .error .timeout), (.queryPosition, .ok .ack)] ∧
      (w.results.filterMap fun x => x.2.toOption).Sublist
        (([(false, Response.ack)].take w.device.obtained.length).map Prod.snd) ∧
      w.device.obtained <+: (([.stop, .queryPosition] : List Command).filter
        (·.Accepted)).map Command.received := by
  have hrun : ∃ w, Steps World.LateStep (.new [(false, .ack)] [.stop, .queryPosition]) 9 w ∧
      w.results = [(.stop, .error .timeout), (.queryPosition, .ok .ack)] :=
    ⟨_, ((((((((Steps.start.next (.step (.send rfl))).next (.timeout rfl rfl)).next
      (.step (.send rfl))).next (.step (.handle rfl rfl))).next (.step (.handle rfl rfl))).next
      (.step (.arrive rfl))).next (.step (.arrive rfl))).next
      (.step (.read (by decide) rfl))).next (.step (.answer (by decide) rfl)), rfl⟩
  obtain ⟨w, hw, hresults⟩ := hrun
  exact ⟨w, hw, hresults, late_answers _ _ (by simp [Response.InRange])
    (by simp [Command.OffsetsFit]) (by simp) 9 w hw⟩

end Easycom
