import Easycom.Conversation
import Easycom.LineEndings
import Easycom.SessionHistory

/-!
# Easycom — SessionCalls

What a session does to its transport, whatever the transport does. A
`Logged` transport keeps the calls it was given: for every command that is
accepted one write of its whole frame, and then only reads
(`session_calls`). A `Wired` transport keeps what has gone out, the frames
whose write succeeded: whatever goes wrong on the way back, a device that
is fed with them obtains their commands, in order (`written_obtained`).
-/

namespace Easycom

open Rust Stream

variable {T ε : Type} [Transport T ε]

/-! ## Reading -/

/-- One step of a listener is one read. -/
theorem Listener.step_transport (sent : List UInt8) (a : Listener T) :
    Sum.elim (fun a' => a'.transport = (Transport.read a.transport a.byte).2)
      (fun heard : Heard T ε => heard.transport = (Transport.read a.transport a.byte).2)
      (a.step sent) := by
  rw [Listener.step]
  generalize Transport.read a.transport a.byte = out
  obtain ⟨⟨n, byte⟩, t⟩ := out
  rcases n with e | _ | k
  · rfl
  · rfl
  · simp only
    split
    · split <;> rfl
    · rfl

/-- What every read keeps, a listener keeps. -/
theorem Listener.halts_transport {P : T → Prop} {sent : List UInt8} {a : Listener T}
    {heard : Heard T ε} (h : Halts (Listener.step sent) a heard) (ha : P a.transport)
    (hread : ∀ t buf, P t → P (Transport.read t buf).2) : P heard.transport := by
  refine h.invariant (P := fun a => P a.transport) (Q := fun heard => P heard.transport) ha ?_ ?_
  · intro a a' ha hstep
    have hsame := a.step_transport (ε := ε) sent
    rw [hstep] at hsame
    exact (show a'.transport = _ from hsame) ▸ hread _ _ ha
  · intro a heard ha hstep
    have hsame := a.step_transport (ε := ε) sent
    rw [hstep] at hsame
    exact (show heard.transport = _ from hsame) ▸ hread _ _ ha

/-! ## The calls -/

/-- A transport with the calls it was given. -/
structure Logged (T : Type) where
  inner : T
  calls : List Call

instance : Transport (Logged T) ε where
  write self frame :=
    let (r, inner) := Transport.write self.inner frame
    (r, ⟨inner, self.calls ++ [.write frame]⟩)
  read self buf :=
    let (out, inner) := Transport.read self.inner buf
    (out, ⟨inner, self.calls ++ [.read]⟩)
  read_length self buf := Transport.read_length self.inner buf

theorem Logged.write_calls {t t' : Logged T} {frame : List UInt8} {w : Except ε Unit}
    (h : Transport.write t frame = (w, t')) : t'.calls = t.calls ++ [.write frame] := by
  rw [show t' = (Transport.write t frame).2 by rw [h]]
  rfl

/-- The calls of a send of `c` that reads `n` times. -/
def Command.calls (c : Command) (n : Nat) : List Call :=
  if c.Accepted then .write (c.payload ++ [byte '\r']) :: List.replicate n .read else []

theorem Session.Sends.calls {s s' : Session (Logged T)} {c : Command}
    {r : Except (Error ε) Response} {l : List UInt8} (h : s.Sends c r s')
    (hl : s.parser.Holds l) :
    ∃ n, s'.transport.calls = s.transport.calls ++ c.calls n := by
  obtain ⟨msg, buf, henc, -, rfl⟩ | ⟨hc, e, t, hw, -, rfl⟩ | ⟨hc, t, l', hw, -, hhalts⟩ :=
    h.cases hl
  · have hc : ¬ c.Accepted := by
      intro hc
      cases henc.symm.trans (encodeInto_accepted hc (by simp))
    exact ⟨0, by rw [Command.calls, if_neg hc, List.append_nil]⟩
  · refine ⟨0, ?_⟩
    rw [Command.calls, if_pos hc, List.replicate_zero]
    exact Logged.write_calls hw
  · have hreads : ∃ n, s'.transport.calls = t.calls ++ List.replicate n .read := by
      refine Listener.halts_transport (P := fun t' => ∃ n, t'.calls = t.calls ++ List.replicate n .read)
        hhalts ⟨0, by simp [Listener.start]⟩ ?_
      intro t' buf ht'
      obtain ⟨n, hn⟩ := ht'
      refine ⟨n + 1, ?_⟩
      rw [List.replicate_succ', ← List.append_assoc, ← hn]
      rfl
    obtain ⟨n, hn⟩ := hreads
    refine ⟨n, ?_⟩
    rw [hn, Logged.write_calls hw, Command.calls, if_pos hc, List.append_assoc,
      List.singleton_append]

/-- After a send the parser holds a line again. -/
theorem Session.Sends.holds {s s' : Session T} {c : Command} {r : Except (Error ε) Response}
    {l : List UInt8} (h : s.Sends c r s') (hl : s.parser.Holds l) :
    ∃ l', s'.parser.Holds l' := by
  obtain ⟨msg, buf, -, -, rfl⟩ | ⟨-, e, t, -, -, rfl⟩ | ⟨-, t, l', -, hl', -⟩ := h.cases hl
  · exact ⟨l, hl⟩
  · exact ⟨l, hl⟩
  · exact ⟨l', hl'⟩

theorem SendAll.calls {s s' : Session (Logged T)}
    {rs : List (Command × Except (Error ε) Response)} {l : List UInt8} (h : SendAll s rs s')
    (hl : s.parser.Holds l) :
    ∃ ns : List Nat, ns.length = rs.length ∧ s'.transport.calls
      = s.transport.calls ++ (rs.zip ns).flatMap fun x => x.1.1.calls x.2 := by
  induction h generalizing l with
  | nil => exact ⟨[], rfl, by simp⟩
  | @cons s s₁ s' c r rs hsend _ ih =>
      obtain ⟨n, hn⟩ := hsend.calls hl
      obtain ⟨l₁, hl₁⟩ := hsend.holds hl
      obtain ⟨ns, hlen, hcalls⟩ := ih hl₁
      refine ⟨n :: ns, by simp [hlen], ?_⟩
      rw [hcalls, hn, List.append_assoc]
      rfl

/-- **A session is half duplex.** On every transport, a session makes for
each accepted command one write, of its whole frame, and then reads until
the send returns; a rejected command makes no call, and nothing is written
in between. -/
theorem session_calls (t : T) (rs : List (Command × Except (Error ε) Response))
    (s : Session (Logged T)) (h : SendAll (Session.new ⟨t, []⟩) rs s) :
    ∃ ns : List Nat, ns.length = rs.length ∧
      s.intoTransport.calls = (rs.zip ns).flatMap fun x =>
        if x.1.1.Accepted then
          .write (x.1.1.payload ++ [byte '\r']) :: List.replicate x.2 .read
        else [] :=
  h.calls Parser.new_holds

/-- An azimuth that is rejected, and a stop that is answered. -/
theorem session_calls_two :
    ∃ (s : Session (Logged (Scripted Empty))) (ns : List Nat), ns.length = 2 ∧
      s.intoTransport.calls = ([(Command.azimuth 361, (.error (.invalidParam "azimuth must be 0–360")
          : Except (Error Empty) Response)), (.stop, .ok .ack)].zip ns).flatMap fun x =>
        if x.1.1.Accepted then
          .write (x.1.1.payload ++ [byte '\r']) :: List.replicate x.2 .read
        else [] := by
  have hsends : ∃ s : Session (Logged (Scripted Empty)),
      SendAll (Session.new ⟨⟨[], [bytes "+\r"], none, []⟩, []⟩)
        [(.azimuth 361, .error (.invalidParam "azimuth must be 0–360")), (.stop, .ok .ack)] s :=
    ⟨_, .cons ⟨0, rfl⟩ (.cons ⟨2, rfl⟩ (.nil _))⟩
  obtain ⟨s, hs⟩ := hsends
  exact ⟨s, session_calls _ _ s hs⟩

/-! ## What has gone out -/

/-- A transport with what has gone out on it: the frames whose write
succeeded. -/
structure Wired (T : Type) where
  inner : T
  out : List UInt8

instance : Transport (Wired T) ε where
  write self frame :=
    let (r, inner) := Transport.write self.inner frame
    (r, ⟨inner, self.out ++ if r.isOk then frame else []⟩)
  read self buf :=
    let (out, inner) := Transport.read self.inner buf
    (out, ⟨inner, self.out⟩)
  read_length self buf := Transport.read_length self.inner buf

theorem Wired.write_out {t t' : Wired T} {frame : List UInt8} {w : Except ε Unit}
    (h : Transport.write t frame = (w, t')) :
    t'.out = t.out ++ if w.isOk then frame else [] := by
  rw [show t' = (Transport.write t frame).2 by rw [h],
    show w = (Transport.write t frame).1 by rw [h]]
  rfl

/-- The transport did not fail in a send with this result. -/
def transportOk : Except (Error ε) Response → Bool
  | .error (.transport _) => false
  | _ => true

/-- What a send puts out: its frame, or nothing, and then the result says
so. -/
theorem Session.Sends.out {s s' : Session (Wired T)} {c : Command}
    {r : Except (Error ε) Response} {l : List UInt8} (h : s.Sends c r s')
    (hl : s.parser.Holds l) :
    (c.Accepted ∧ s'.transport.out = s.transport.out ++ (c.payload ++ [byte '\r'])) ∨
      (¬ (c.Accepted ∧ transportOk r = true) ∧ s'.transport.out = s.transport.out) := by
  obtain ⟨msg, buf, henc, -, rfl⟩ | ⟨hc, e, t, hw, rfl, rfl⟩ | ⟨hc, t, l', hw, -, hhalts⟩ :=
    h.cases hl
  · refine .inr ⟨fun hok => ?_, rfl⟩
    cases henc.symm.trans (encodeInto_accepted hok.1 (by simp))
  · refine .inr ⟨fun hok => ?_, (Wired.write_out hw).trans (List.append_nil _)⟩
    cases hok.2
  · have hout : s'.transport.out = t.out :=
      -- reading puts nothing out
      Listener.halts_transport (P := fun t' : Wired T => t'.out = t.out) hhalts rfl
        fun _ _ ht => ht
    exact .inl ⟨hc, hout.trans (Wired.write_out hw)⟩

/-- Of the sends `rs`, those of `ws` have put their frames out: all whose
command was accepted, but for some in which the transport failed. -/
structure PutOut (rs ws : List (Command × Except (Error ε) Response)) : Prop where
  low : (rs.filter fun x => x.1.Accepted && transportOk x.2).Sublist ws
  high : ws.Sublist (rs.filter fun x => x.1.Accepted)

theorem SendAll.out {s s' : Session (Wired T)}
    {rs : List (Command × Except (Error ε) Response)} {l : List UInt8} (h : SendAll s rs s')
    (hl : s.parser.Holds l) :
    ∃ ws, PutOut rs ws ∧ s'.transport.out
      = s.transport.out ++ streamOf (ws.map fun x => ⟨x.1.payload, [byte '\r']⟩) := by
  induction h generalizing l with
  | nil => exact ⟨[], ⟨List.Sublist.refl _, List.Sublist.refl _⟩, by simp [streamOf]⟩
  | @cons s s₁ s' c r rs hsend _ ih =>
      obtain ⟨l₁, hl₁⟩ := hsend.holds hl
      obtain ⟨ws, hws, hout⟩ := ih hl₁
      rcases hsend.out hl with ⟨hc, hout₁⟩ | ⟨hno, hout₁⟩
      · refine ⟨(c, r) :: ws, ⟨?_, ?_⟩, by rw [hout, hout₁, List.append_assoc]; rfl⟩
        · rw [List.filter_cons]
          split
          · exact hws.low.cons_cons _
          · exact hws.low.cons _
        · rw [List.filter_cons_of_pos (by simpa using hc)]
          exact hws.high.cons_cons _
      · refine ⟨ws, ⟨?_, ?_⟩, by rw [hout, hout₁]⟩
        · rw [List.filter_cons_of_neg (by simpa using hno)]
          exact hws.low
        · rw [List.filter_cons]
          split
          · exact hws.high.cons _
          · exact hws.high

/-- What has gone out in any sends, at a fresh `CommandParser`. -/
theorem SendAll.obtained {t : T} {rs : List (Command × Except (Error ε) Response)}
    {s : Session (Wired T)} (h : SendAll (Session.new ⟨t, []⟩) rs s)
    (hoff : ∀ x ∈ rs, x.1.OffsetsFit) :
    ∃ ws outs parser, PutOut rs ws ∧
      s.intoTransport.out = (ws.flatMap fun x => x.1.payload ++ [byte '\r']) ∧
      feedAll CommandParser.feed CommandParser.new s.intoTransport.out = .ok (outs, parser) ∧
      outs.reduceOption = (ws.map fun x => x.1.received) ∧ parser.len = 0 := by
  obtain ⟨ws, hws, hout⟩ := h.out Parser.new_holds
  have hmem : ∀ x ∈ ws, x.1.Accepted ∧ x.1.OffsetsFit := by
    intro x hx
    obtain ⟨hrs, hacc⟩ := List.mem_filter.mp (hws.high.subset hx)
    exact ⟨by simpa using hacc, hoff x hrs⟩
  have hvalid : ∀ x ∈ ws.map fun x => (⟨x.1.payload, [byte '\r']⟩ : EndedLine), x.Valid := by
    intro x hx
    obtain ⟨y, -, rfl⟩ := List.mem_map.mp hx
    exact ⟨y.1.payload_plain.is_open, by simp, List.forall_mem_singleton.mpr rfl⟩
  obtain ⟨outs, parser, hfeed, houts, hempty⟩ := feedAll_streamOf hvalid
  have hframes : s.intoTransport.out = ws.flatMap fun x => x.1.payload ++ [byte '\r'] := by
    rw [show s.intoTransport.out = _ from hout, streamOf, List.flatMap_map]
    rfl
  refine ⟨ws, outs, parser, hws, hframes, ?_, ?_, hempty⟩
  · rw [show s.intoTransport.out = _ from hout]
    exact hfeed
  · rw [houts, List.filterMap_map]
    refine (List.filterMap_congr (g := some ∘ fun x => x.1.received) fun x hx => ?_).trans
      (congrFun List.filterMap_eq_map _)
    obtain ⟨hacc, hfit⟩ := hmem x hx
    have hlen := x.1.payload_length_le
    show readCommand (residue maxCmdFrame x.1.payload) = _
    rw [residue_of_le (by rw [maxCmdFrame]; omega), readCommand_payload hacc hfit]
    rfl

/-- **The device obtains what has gone out**, on whatever transport and
with whatever results: a fresh `CommandParser` decodes it to the commands
of the sends that have put their frames out, each once and in order, with
nothing left in the parser. Only a send in which the transport failed may
be missing. -/
theorem written_obtained (t : T) (rs : List (Command × Except (Error ε) Response))
    (hoff : ∀ x ∈ rs, x.1.OffsetsFit) (s : Session (Wired T))
    (h : SendAll (Session.new ⟨t, []⟩) rs s) :
    ∃ ws outs parser, PutOut rs ws ∧
      s.intoTransport.out = (ws.flatMap fun x => x.1.payload ++ [byte '\r']) ∧
      feedAll CommandParser.feed CommandParser.new s.intoTransport.out = .ok (outs, parser) ∧
      outs.reduceOption = (ws.map fun x => x.1.received) ∧ parser.len = 0 :=
  h.obtained hoff

/-- A port that takes `left` frames and then fails, and is silent. -/
structure Cut where
  left : Nat

instance : Transport Cut Unit where
  write self _ :=
    match self.left with
    | 0 => (.error (), self)
    | left + 1 => (.ok (), ⟨left⟩)
  read self buf := ((.ok 0, buf), self)
  read_length _ _ := rfl

/-- A query of the status, and a stop whose write fails. -/
theorem written_obtained_two :
    ∃ (s : Session (Wired Cut)) (ws : _) (outs : _) (parser : _),
      PutOut [(.queryStatus, .error .timeout), (.stop, .error (.transport ()))] ws ∧
      s.intoTransport.out = (ws.flatMap fun x => x.1.payload ++ [byte '\r']) ∧
      feedAll CommandParser.feed CommandParser.new s.intoTransport.out = .ok (outs, parser) ∧
      outs.reduceOption = (ws.map fun x => x.1.received) ∧ parser.len = 0 := by
  have hsends : ∃ s, SendAll (Session.new (⟨⟨1⟩, []⟩ : Wired Cut))
      [(.queryStatus, .error .timeout), (.stop, .error (.transport ()))] s :=
    ⟨_, .cons ⟨2, rfl⟩ (.cons ⟨2, rfl⟩ (.nil _))⟩
  obtain ⟨s, hs⟩ := hsends
  exact ⟨s, written_obtained _ _ (by simp [Command.OffsetsFit]) s hs⟩

end Easycom
