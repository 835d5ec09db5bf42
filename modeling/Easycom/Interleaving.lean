import Easycom.System
import Easycom.Stream.Steps

/-!
# Easycom — Interleaving

Every order of the steps of host, device and channel leads to the same
conversation. `Agree` follows one exchange through its phases: the frame
is on its way to the device (`sending`), or what the device sent is on its
way to the host (`answering`). It counts the steps that are left, so that
it also says that every run ends, and where.
-/

namespace Easycom

open Rust Stream

/-! ## What is on its way -/

/-- What the device sends in an exchange. -/
def Exchange.reply (x : Exchange) : List UInt8 :=
  (if x.echoed then x.command.payload ++ [byte '\r'] else []) ++ x.response.frame

/-- The steps of an exchange: the send, one for every byte the device
handles, and two for every byte it sends. -/
def Exchange.steps (x : Exchange) : Nat :=
  1 + (x.command.payload.length + 1) + 2 * x.reply.length

/-- The steps of a conversation. -/
def stepsOf (xs : List Exchange) : Nat := (xs.map Exchange.steps).sum

@[simp] theorem stepsOf_cons (x : Exchange) (xs : List Exchange) :
    stepsOf (x :: xs) = x.steps + stepsOf xs := rfl

theorem stepsOf_eq_zero {xs : List Exchange} : stepsOf xs = 0 ↔ xs = [] := by
  cases xs with
  | nil => simp [stepsOf]
  | cons x xs => simp [Exchange.steps]

/-- With `q` read of a line, what is still to be read: the rest of the
echo and the response, or the rest of the response. -/
inductive Coming (x : Exchange) (q : List UInt8) : List UInt8 → Prop where
  | echo {v : List UInt8} (hne : v ≠ []) (h : x.command.payload ++ [byte '\r'] = q ++ v) :
      Coming x q (v ++ x.response.frame)
  | response {v : List UInt8} (hne : v ≠ []) (h : x.response.frame = q ++ v) : Coming x q v

theorem coming_reply (x : Exchange) : Coming x [] x.reply := by
  rw [Exchange.reply]
  split
  · exact .echo (by simp) rfl
  · exact .response (by simp [Response.frame]) rfl

theorem Coming.ne_nil {x : Exchange} {q bytes : List UInt8} (h : Coming x q bytes) :
    bytes ≠ [] := by
  cases h with
  | echo hne _ => simp [hne]
  | response hne _ => exact hne

/-- An element of a terminated line: the terminator, or one of the line. -/
theorem snoc_split {α : Type} {L q v : List α} {b t : α} (h : L ++ [t] = q ++ b :: v) :
    (v = [] ∧ q = L ∧ b = t) ∨ ∃ v', v = v' ++ [t] ∧ L = q ++ b :: v' := by
  rcases List.eq_nil_or_concat v with rfl | ⟨v', a, rfl⟩
  · obtain ⟨hL, ht⟩ := List.append_inj' h rfl
    exact .inl ⟨rfl, hL.symm, (List.head_eq_of_cons_eq ht).symm⟩
  · rw [List.concat_eq_append, ← List.cons_append, ← List.append_assoc] at h
    obtain ⟨hL, ht⟩ := List.append_inj' h rfl
    exact .inr ⟨v', by rw [List.concat_eq_append, List.head_eq_of_cons_eq ht], hL⟩

/-- **One byte of a reply**: one of a line, the end of the echo, or the
end of the response. -/
theorem Coming.read {x : Exchange} {q bytes : List UInt8} {b : UInt8}
    (h : Coming x q (b :: bytes)) :
    (isTerminator b = false ∧ q.length < maxFrame ∧ Coming x (q ++ [b]) bytes) ∨
    (isTerminator b = true ∧ q = x.command.payload ∧ Coming x [] bytes) ∨
    (isTerminator b = true ∧ q = x.response.payload ∧ bytes = []) := by
  have hopen : ∀ {L v' : List UInt8}, Open isTerminator L → L.length ≤ 19 → L = q ++ b :: v' →
      isTerminator b = false ∧ q.length < maxFrame := by
    intro L v' hL hlen heq
    subst heq
    simp only [List.length_append, List.length_cons] at hlen
    exact ⟨(open_cons.mp hL.of_append.2).1, by rw [maxFrame]; omega⟩
  generalize hbs : b :: bytes = bs at h
  cases h with
  | @echo v hne h =>
      cases v with
      | nil => exact absurd rfl hne
      | cons c v =>
          obtain ⟨rfl, rfl⟩ := List.cons.inj hbs
          rcases snoc_split h with ⟨rfl, rfl, rfl⟩ | ⟨v', rfl, hL⟩
          · exact .inr (.inl ⟨rfl, rfl, .response (by simp [Response.frame]) rfl⟩)
          · obtain ⟨hb, hlt⟩ :=
              hopen x.command.payload_plain.is_open x.command.payload_length_le hL
            exact .inl ⟨hb, hlt, .echo (by simp) (by rw [hL]; simp)⟩
  | response hne h =>
      subst hbs
      rcases snoc_split h with ⟨rfl, rfl, rfl⟩ | ⟨v', rfl, hL⟩
      · exact .inr (.inr ⟨x.response.terminator_isTerminator, rfl, rfl⟩)
      · obtain ⟨hb, hlt⟩ :=
          hopen x.response.payload_plain.is_open x.response.payload_length_le hL
        exact .inl ⟨hb, hlt, .response (by simp) (by rw [Response.frame, hL]; simp)⟩

/-! ## The phases of an exchange -/

/-- What a send of the exchange gives. -/
def Exchange.result (x : Exchange) : Command × Except (Error Empty) Response :=
  (x.command, .ok x.response)

/-- The device after the exchanges `done`, with the first bytes `l` of the
next frame. -/
structure Device.After (d : Device) (done : List Exchange) (l : List UInt8)
    (rest : List Exchange) : Prop where
  holds : d.Holds l
  obtained : d.obtained = done.map fun x => x.command.received
  script : d.script = rest.map fun x => (x.echoed, x.response)

/-- A conversation with so many steps left. -/
inductive Agree (xs : List Exchange) : Nat → World → Prop where
  /-- Between two exchanges, nothing is on its way. -/
  | idle {done rest session device} (hxs : xs = done ++ rest)
      (hport : session.transport = ⟨[], []⟩) (hparser : session.parser.Holds [])
      (hdevice : device.After done [] rest) :
      Agree xs (stepsOf rest)
        ⟨.idle session, device, [], rest.map Exchange.command, done.map Exchange.result⟩
  /-- The device has handled `u` of the frame, `v` is on its way. -/
  | sending {done rest x u v byte host device} (hxs : xs = done ++ x :: rest) (hne : v ≠ [])
      (hframe : x.command.payload ++ [Rust.byte '\r'] = u ++ v)
      (hhost : host.Receives x.command ⟨⟨v, []⟩, byte, [], []⟩)
      (hdevice : device.After done u (x :: rest)) :
      Agree xs (v.length + 2 * x.reply.length + stepsOf rest)
        ⟨host, device, [], rest.map Exchange.command, done.map Exchange.result⟩
  /-- The host has read `q` of a line, the rest has arrived or is on its
  way. -/
  | answering {done rest x q arrived inFlight byte host device} (hxs : xs = done ++ x :: rest)
      (hcoming : Coming x q (arrived ++ inFlight))
      (hhost : host.Receives x.command ⟨⟨[], arrived⟩, byte, q, q⟩)
      (hdevice : device.After (done ++ [x]) [] rest) :
      Agree xs (2 * inFlight.length + arrived.length + stepsOf rest)
        ⟨host, device, inFlight, rest.map Exchange.command, done.map Exchange.result⟩

/-- **The device at a byte of the frame**: it waits for more, or answers. -/
theorem Device.After.receive {d : Device} {done rest : List Exchange} {x : Exchange}
    {u v : List UInt8} {b : UInt8} (hx : x.Valid) (h : d.After done u (x :: rest))
    (hframe : x.command.payload ++ [byte '\r'] = u ++ b :: v) :
    ∃ out d', d.receive b = .ok (out, d') ∧
      ((v ≠ [] ∧ out = [] ∧ d'.After done (u ++ [b]) (x :: rest)) ∨
        (v = [] ∧ out = x.reply ∧ d'.After (done ++ [x]) [] rest)) := by
  rcases snoc_split hframe with ⟨rfl, rfl, rfl⟩ | ⟨v', rfl, hL⟩
  · obtain ⟨⟨out, d'⟩, hrecv, hout, hholds, hobtained, hscript⟩ :=
      Device.receive_line h.holds (show isTerminator (byte '\r') = true by decide)
        (readCommand_payload hx.accepted hx.offsets) h.script
    refine ⟨out, d', hrecv, .inr ⟨rfl, hout, hholds, ?_, hscript⟩⟩
    rw [hobtained, h.obtained, List.map_append]
    rfl
  · have hopen := x.command.payload_plain.is_open
    have hlen := x.command.payload_length_le
    rw [hL] at hopen hlen
    simp only [List.length_append, List.length_cons] at hlen
    obtain ⟨⟨out, d'⟩, hrecv, hout, hholds, hobtained, hscript⟩ :=
      Device.receive_open h.holds (open_cons.mp hopen.of_append.2).1
        (by rw [maxCmdFrame]; omega)
    exact ⟨out, d', hrecv, .inl ⟨by simp, hout, hholds, hobtained.trans h.obtained,
      hscript.trans h.script⟩⟩

/-- **The host at a byte of the reply**: it reads on, or has the response. -/
theorem Host.Receives.read {x : Exchange} {cmd : Command} {len : Nat} {st : RecvState Port}
    {frameBuf q arrived inFlight byte : List UInt8} {b : UInt8} (hx : x.Valid)
    (h : (Host.receiving cmd frameBuf len st).Receives x.command
      ⟨⟨[], b :: arrived⟩, byte, q, q⟩)
    (hcoming : Coming x q (b :: arrived ++ inFlight)) :
    cmd = x.command ∧
    ((∃ st' q', Easycom.recvStep frameBuf len st = .ok (.inl st') ∧
        Coming x q' (arrived ++ inFlight) ∧
        (Host.receiving cmd frameBuf len st').Receives x.command ⟨⟨[], arrived⟩, [b], q', q'⟩) ∨
      (∃ session, Easycom.recvStep frameBuf len st = .ok (.inr (.ok x.response, session)) ∧
        session.transport = ⟨[], []⟩ ∧ session.parser.Holds [] ∧
        arrived = [] ∧ inFlight = [])) := by
  obtain ⟨⟨rfl, rfl, hsent⟩, hbyte, out, hout, hrel⟩ := h.recvStep
  rw [Listener.step_arrived hbyte rfl] at hrel
  simp only at hrel
  rw [hout]
  refine ⟨rfl, ?_⟩
  rcases hcoming.read with ⟨hb, hlt, hcoming'⟩ | ⟨hb, rfl, hcoming'⟩ | ⟨hb, rfl, hnil⟩
  · rw [if_neg (by simp [hb]), step_quiet hb hlt] at hrel
    cases hrel with
    | inl hears => exact .inl ⟨_, _, rfl, hcoming', .mk hsent hears⟩
  · rw [if_pos hb, if_pos rfl] at hrel
    cases hrel with
    | inl hears => exact .inl ⟨_, _, rfl, hcoming', .mk hsent hears⟩
  · rw [if_pos hb, if_neg (Response.payload_ne_payload hx.noEcho),
      readResponse_payload hx.inRange] at hrel
    obtain ⟨rfl, rfl⟩ := List.append_eq_nil_iff.mp hnil
    cases hrel with
    | @inr out _ hret =>
        obtain ⟨r, session⟩ := out
        obtain rfl : r = .ok x.response := hret.result
        exact .inr ⟨session, rfl, hret.transport, hret.parser, rfl, rfl⟩

/-! ## One step -/

variable {xs done rest : List Exchange} {x : Exchange} {n : Nat} {w w' : World}

/-- From an idle world only the next send starts. -/
theorem Agree.step_idle (hvalid : ∀ x ∈ xs, x.Valid) {session : Session Port} {device : Device}
    (hxs : xs = done ++ rest) (hport : session.transport = ⟨[], []⟩)
    (hparser : session.parser.Holds []) (hdevice : device.After done [] rest)
    (hstep : World.Step ⟨.idle session, device, [], rest.map Exchange.command,
      done.map Exchange.result⟩ w') :
    ∃ m, stepsOf rest = m + 1 ∧ Agree xs m w' := by
  generalize htodo : rest.map Exchange.command = todo at hstep
  have hquiet : ∀ {b : UInt8} {bytes : List UInt8},
      (Host.idle session).port.toDevice ≠ b :: bytes := by
    intro b bytes hb
    cases (congrArg Port.toDevice hport).symm.trans hb
  have hhead : ∀ {cmd cmds}, rest.map Exchange.command = cmd :: cmds →
      ∃ x rest', rest = x :: rest' ∧ x.Valid ∧ cmd = x.command ∧
        cmds = rest'.map Exchange.command := by
    intro cmd cmds h
    obtain ⟨x, rest', rfl, rfl, rfl⟩ := List.map_eq_cons_iff.mp h
    exact ⟨x, rest', rfl, hvalid x (by simp [hxs]), rfl, rfl⟩
  cases hstep with
  | send hsend =>
      obtain ⟨x, rest', rfl, hx, rfl, rfl⟩ := hhead htodo
      obtain ⟨frameBuf, st, hhead, hsent, hears⟩ :=
        Session.sendHead_accepted hx.accepted (s := session)
          (t := ⟨x.command.payload ++ [byte '\r'], []⟩) (by rw [hport]; rfl) hparser
      cases hhead.symm.trans hsend
      refine ⟨_, ?_, .sending hxs (by simp) (List.nil_append _).symm (.mk hsent hears) hdevice⟩
      simp only [stepsOf_cons, Exchange.steps, List.length_append, List.length_singleton]
      omega
  | refuse hrefuse =>
      obtain ⟨x, rest', rfl, hx, rfl, rfl⟩ := hhead htodo
      obtain ⟨frameBuf, st, hhead, -, -⟩ :=
        Session.sendHead_accepted hx.accepted (s := session)
          (t := ⟨x.command.payload ++ [byte '\r'], []⟩) (by rw [hport]; rfl) hparser
      cases hhead.symm.trans hrefuse
  | handle hb => exact absurd hb hquiet
  | arrive hb => cases hb

/-- While the frame is on its way, only the device can go on. -/
theorem Agree.step_sending (hvalid : ∀ x ∈ xs, x.Valid) {u v byte : List UInt8} {host : Host}
    {device : Device} (hxs : xs = done ++ x :: rest) (hne : v ≠ [])
    (hframe : x.command.payload ++ [Rust.byte '\r'] = u ++ v)
    (hhost : host.Receives x.command ⟨⟨v, []⟩, byte, [], []⟩)
    (hdevice : device.After done u (x :: rest))
    (hstep : World.Step ⟨host, device, [], rest.map Exchange.command,
      done.map Exchange.result⟩ w') :
    ∃ m, v.length + 2 * x.reply.length + stepsOf rest = m + 1 ∧ Agree xs m w' := by
  generalize htodo : rest.map Exchange.command = todo at hstep
  cases hstep with
  | send => cases hhost
  | refuse => cases hhost
  | @handle _ b bytes out device' hb hrecv =>
      subst htodo
      obtain rfl : v = b :: bytes := (congrArg Port.toDevice hhost.port).symm.trans hb
      obtain ⟨out, d', hd, hphase⟩ := hdevice.receive (hvalid x (by simp [hxs])) hframe
      cases hd.symm.trans hrecv
      simp only [hhost.port]
      rcases hphase with ⟨hv, rfl, hd'⟩ | ⟨rfl, rfl, hd'⟩
      · refine ⟨_, ?_, .sending hxs hv (by rw [hframe]; simp) (hhost.setPort _) hd'⟩
        rw [List.length_cons]
        omega
      · refine ⟨_, ?_, .answering hxs (coming_reply x) (hhost.setPort _) hd'⟩
        simp only [List.length_cons, List.length_nil, List.nil_append]
        omega
  | arrive hb => cases hb
  | read hready => exact absurd (congrArg Port.arrived hhost.port) hready
  | answer hready => exact absurd (congrArg Port.arrived hhost.port) hready

/-- While the reply is on its way, a byte arrives or is read. -/
theorem Agree.step_answering (hvalid : ∀ x ∈ xs, x.Valid) {q arrived inFlight byte : List UInt8}
    {host : Host} {device : Device} (hxs : xs = done ++ x :: rest)
    (hcoming : Coming x q (arrived ++ inFlight))
    (hhost : host.Receives x.command ⟨⟨[], arrived⟩, byte, q, q⟩)
    (hdevice : device.After (done ++ [x]) [] rest)
    (hstep : World.Step ⟨host, device, inFlight, rest.map Exchange.command,
      done.map Exchange.result⟩ w') :
    ∃ m, 2 * inFlight.length + arrived.length + stepsOf rest = m + 1 ∧ Agree xs m w' := by
  have hx := hvalid x (by simp [hxs])
  generalize htodo : rest.map Exchange.command = todo at hstep
  cases hstep with
  | send => cases hhost
  | refuse => cases hhost
  | handle hb => cases (congrArg Port.toDevice hhost.port).symm.trans hb
  | @arrive _ b bytes hb =>
      subst htodo
      obtain rfl : inFlight = b :: bytes := hb
      simp only [hhost.port]
      refine ⟨_, ?_, .answering hxs ?_ (hhost.setPort _) hdevice⟩
      · simp only [List.length_append, List.length_cons, List.length_nil]
        omega
      · rwa [List.append_assoc]
  | @read cmd frameBuf len st st' _ _ _ _ hready hrecv =>
      subst htodo
      obtain ⟨b, arrived, rfl⟩ :=
        List.exists_cons_of_ne_nil fun h => hready ((congrArg Port.arrived hhost.port).trans h)
      obtain ⟨rfl, ⟨st₁, q', hst, hcoming', hhost'⟩ | ⟨session, hst, -⟩⟩ :=
        hhost.read hx hcoming
      · cases hst.symm.trans hrecv
        exact ⟨_, by rw [List.length_cons]; omega, .answering hxs hcoming' hhost' hdevice⟩
      · cases hst.symm.trans hrecv
  | @answer cmd frameBuf len st _ _ _ _ r session hready hrecv =>
      subst htodo
      obtain ⟨b, arrived, rfl⟩ :=
        List.exists_cons_of_ne_nil fun h => hready ((congrArg Port.arrived hhost.port).trans h)
      obtain ⟨rfl, ⟨st₁, q', hst, -⟩ | ⟨session, hst, hport, hparser, rfl, rfl⟩⟩ :=
        hhost.read hx hcoming
      · cases hst.symm.trans hrecv
      · cases hst.symm.trans hrecv
        have hdone : xs = (done ++ [x]) ++ rest := by simp [hxs]
        have hidle := Agree.idle hdone hport hparser hdevice
        rw [List.map_append] at hidle
        exact ⟨_, by simp; omega, hidle⟩

/-- **Every step of a conversation leaves one step less.** -/
theorem Agree.step (hvalid : ∀ x ∈ xs, x.Valid) (h : Agree xs n w) (hstep : w.Step w') :
    ∃ m, n = m + 1 ∧ Agree xs m w' := by
  cases h with
  | idle hxs hport hparser hdevice => exact step_idle hvalid hxs hport hparser hdevice hstep
  | sending hxs hne hframe hhost hdevice =>
      exact step_sending hvalid hxs hne hframe hhost hdevice hstep
  | answering hxs hcoming hhost hdevice =>
      exact step_answering hvalid hxs hcoming hhost hdevice hstep

/-- **A conversation that is not over has a next step.** -/
theorem Agree.progress (hvalid : ∀ x ∈ xs, x.Valid) (h : Agree xs n w) (hn : n ≠ 0) :
    ∃ w', w.Step w' := by
  cases h with
  | @idle done rest session device hxs hport hparser hdevice =>
      cases rest with
      | nil => exact absurd rfl hn
      | cons x rest =>
          obtain ⟨frameBuf, st, hhead, -, -⟩ :=
            Session.sendHead_accepted (hvalid x (by simp [hxs])).accepted (s := session)
              (t := ⟨x.command.payload ++ [byte '\r'], []⟩) (by rw [hport]; rfl) hparser
          exact ⟨_, .send hhead⟩
  | @sending done rest x u v byte host device hxs hne hframe hhost hdevice =>
      obtain ⟨b, v, rfl⟩ := List.exists_cons_of_ne_nil hne
      obtain ⟨out, d', hrecv, -⟩ := hdevice.receive (hvalid x (by simp [hxs])) hframe
      exact ⟨_, .handle (congrArg Port.toDevice hhost.port) hrecv⟩
  | @answering done rest x q arrived inFlight byte host device hxs hcoming hhost hdevice =>
      cases arrived with
      | nil =>
          obtain ⟨b, bytes, rfl⟩ := List.exists_cons_of_ne_nil hcoming.ne_nil
          exact ⟨_, .arrive rfl⟩
      | cons b arrived =>
          cases hhost with
          | @mk _ frameBuf st _ hsent hears =>
              have hready : st.session.transport.arrived ≠ [] := by simp [hears.transport]
              obtain ⟨-, ⟨st', q', hst, -⟩ | ⟨session, hst, -⟩⟩ :=
                Host.Receives.read (hvalid x (by simp [hxs])) (.mk hsent hears) hcoming
              · exact ⟨_, .read hready hst⟩
              · exact ⟨_, .answer hready hst⟩

/-- A conversation can be run to its end. -/
theorem Agree.exists_run (hvalid : ∀ x ∈ xs, x.Valid) (h : Agree xs n w) :
    ∃ w', Steps World.Step w n w' := by
  have hrun : ∀ k ≤ n, ∃ w', Steps World.Step w k w' := by
    intro k hk
    induction k with
    | zero => exact ⟨w, .start⟩
    | succ k ih =>
        obtain ⟨w₁, hw₁⟩ := ih (by omega)
        obtain ⟨m, hm, h₁⟩ :=
          hw₁.countdown (P := Agree xs) (fun _ _ _ h hstep => h.step hvalid hstep) h
        obtain ⟨w', hw'⟩ := h₁.progress hvalid (by omega)
        exact ⟨w', .next hw₁ hw'⟩
  exact hrun n (Nat.le_refl n)

/-! ## Whole runs -/

/-- A world at the start of a conversation. -/
def World.ofExchanges (xs : List Exchange) : World :=
  .new (xs.map fun x => (x.echoed, x.response)) (xs.map Exchange.command)

theorem agree_start (xs : List Exchange) : Agree xs (stepsOf xs) (.ofExchanges xs) :=
  .idle (List.nil_append xs).symm rfl Parser.new_holds
    ⟨⟨CommandParser.new_holds, rfl⟩, rfl, rfl⟩

theorem agree_run {k : Nat} (hvalid : ∀ x ∈ xs, x.Valid)
    (h : Steps World.Step (.ofExchanges xs) k w) :
    ∃ m, stepsOf xs = k + m ∧ Agree xs m w :=
  h.countdown (P := Agree xs) (fun _ _ _ h hstep => h.step hvalid hstep) (agree_start xs)

/-- **Every interleaving agrees.** Whatever the order in which the host
reads, the device handles bytes and bytes arrive, at every moment the host
has the responses of the first `n` exchanges as its results, and the device
the commands of the first `n`, or of one more. -/
theorem interleavings_agree (xs : List Exchange) (hvalid : ∀ x ∈ xs, x.Valid) (k : Nat)
    (w : World) (h : Steps World.Step (.ofExchanges xs) k w) :
    ∃ n m, n ≤ m ∧ m ≤ n + 1 ∧
      w.results = (xs.take n).map (fun x => (x.command, .ok x.response)) ∧
      w.device.obtained = (xs.take m).map fun x => x.command.received := by
  obtain ⟨r, -, hagree⟩ := agree_run hvalid h
  have htake : ∀ {done rest : List Exchange}, xs = done ++ rest → xs.take done.length = done := by
    intro done rest hxs
    rw [hxs, List.take_left]
  cases hagree with
  | @idle done rest session device hxs hport hparser hdevice =>
      refine ⟨done.length, done.length, by omega, by omega, ?_, ?_⟩
      all_goals rw [htake hxs]
      · rfl
      · exact hdevice.obtained
  | @sending done rest x u v byte host device hxs hne hframe hhost hdevice =>
      refine ⟨done.length, done.length, by omega, by omega, ?_, ?_⟩
      all_goals rw [htake hxs]
      · rfl
      · exact hdevice.obtained
  | @answering done rest x q arrived inFlight byte host device hxs hcoming hhost hdevice =>
      refine ⟨done.length, (done ++ [x]).length, by simp, by simp, ?_, ?_⟩
      · rw [htake hxs]
        rfl
      · rw [htake (show xs = (done ++ [x]) ++ rest by simp [hxs])]
        exact hdevice.obtained

/-- **Every interleaving comes to its end.** A run takes at most
`stepsOf xs` steps, and there is a next step exactly as long as it has
taken fewer: there is no deadlock, and no order of steps takes longer than
another. At the end all commands are obtained and answered, and nothing is
on its way. -/
theorem interleavings_end (xs : List Exchange) (hvalid : ∀ x ∈ xs, x.Valid) (k : Nat)
    (w : World) (h : Steps World.Step (.ofExchanges xs) k w) :
    k ≤ stepsOf xs ∧ ((∃ w', w.Step w') ↔ k < stepsOf xs) ∧
      (k = stepsOf xs →
        w.results = xs.map (fun x => (x.command, .ok x.response)) ∧
        w.device.obtained = (xs.map fun x => x.command.received) ∧
        w.todo = [] ∧ w.inFlight = [] ∧ w.host.port = ⟨[], []⟩) := by
  obtain ⟨m, hm, hagree⟩ := agree_run hvalid h
  refine ⟨by omega, ⟨?_, ?_⟩, ?_⟩
  · intro hnext
    obtain ⟨w', hw'⟩ := hnext
    obtain ⟨m', hm', -⟩ := hagree.step hvalid hw'
    omega
  · intro hlt
    exact hagree.progress hvalid (by omega)
  · intro hk
    obtain rfl : m = 0 := by omega
    generalize hn : 0 = n at hagree
    cases hagree with
    | @idle done rest session device hxs hport hparser hdevice =>
        obtain rfl := stepsOf_eq_zero.mp hn.symm
        obtain rfl : xs = done := hxs.trans (List.append_nil done)
        exact ⟨rfl, hdevice.obtained, rfl, rfl, hport⟩
    | sending hxs hne =>
        have := List.length_pos_of_ne_nil hne
        omega
    | answering hxs hcoming =>
        have := List.length_pos_of_ne_nil hcoming.ne_nil
        rw [List.length_append] at this
        omega

/-- A position query, echoed, and a stop. -/
def shortConversation : List Exchange :=
  [⟨.queryPosition, .position 90 45, true⟩, ⟨.stop, .ack, false⟩]

theorem shortConversation_valid : ∀ x ∈ shortConversation, x.Valid := by
  intro x hx
  simp only [shortConversation, List.mem_cons, List.not_mem_nil, or_false] at hx
  rcases hx with rfl | rfl
  · exact ⟨trivial, trivial, ⟨by decide, by decide⟩, by simp⟩
  · exact ⟨trivial, trivial, trivial, by simp⟩

/-- Agreement after a run of the short conversation. -/
theorem interleavings_agree_short :
    ∃ w, Steps World.Step (.ofExchanges shortConversation) (stepsOf shortConversation) w ∧
      ∃ n m, n ≤ m ∧ m ≤ n + 1 ∧
        w.results = (shortConversation.take n).map (fun x => (x.command, .ok x.response)) ∧
        w.device.obtained = (shortConversation.take m).map fun x => x.command.received := by
  obtain ⟨w, hw⟩ := (agree_start shortConversation).exists_run shortConversation_valid
  exact ⟨w, hw, interleavings_agree _ shortConversation_valid _ w hw⟩

/-- It takes 42 steps, in any order. -/
theorem interleavings_end_short :
    ∃ w, Steps World.Step (.ofExchanges shortConversation) 42 w ∧
      w.results = [(.queryPosition, .ok (.position 90 45)), (.stop, .ok .ack)] ∧
      w.device.obtained = [.queryPosition, .stop] := by
  obtain ⟨w, hw⟩ := (agree_start shortConversation).exists_run shortConversation_valid
  obtain ⟨hresults, hobtained, -⟩ :=
    (interleavings_end _ shortConversation_valid _ w hw).2.2 rfl
  exact ⟨w, hw, hresults, hobtained⟩

end Easycom
