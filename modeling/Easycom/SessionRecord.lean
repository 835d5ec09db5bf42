import Easycom.Conversation
import Easycom.SessionHistory

/-!
# Easycom — SessionRecord

What the results of many sends have to do with the bytes that were
received. On every transport, whatever it delivers and whenever it fails,
the results of the sends are read from lines of the received stream, in
their order, each used once (`results_are_lines`): no result is made up
from bytes of two lines, and none is reported twice.
-/

namespace Easycom

open Rust Stream

variable {T ε : Type} [Transport T ε]

/-! ## The readings of a stream -/

/-- What the parser makes of the line of an event. -/
def lineReading : Event UInt8 → Option (Except ParseError Response)
  | .line l => some (readResponse l)
  | .quiet | .overflow => none

/-- What the parser makes of the lines of a stream. -/
def readings (s : List UInt8) : List (Except ParseError Response) :=
  (run isTerminator maxFrame [] s).1.filterMap lineReading

/-- Each line is read as what is left of it behind its overflows. -/
theorem readings_eq (s : List UInt8) :
    readings s = (splitLines isTerminator s).1.map fun l => readResponse (residue maxFrame l) := by
  rw [readings, filterMap_run rfl rfl]
  exact congrFun List.filterMap_eq_map _

theorem readings_append (s t : List UInt8) :
    readings (s ++ t) = readings s ++
      (run isTerminator maxFrame (run isTerminator maxFrame [] s).2 t).1.filterMap lineReading := by
  rw [readings, run_append, List.filterMap_append]
  rfl

theorem readings_mono {s t : List UInt8} (h : s <+: t) : readings s <+: readings t := by
  obtain ⟨u, rfl⟩ := h
  exact ⟨_, (readings_append s u).symm⟩

/-- A terminator reads the unfinished line, any other byte nothing. -/
theorem readings_snoc (s : List UInt8) (b : UInt8) :
    readings (s ++ [b]) = readings s ++
      (if isTerminator b then [readResponse (run isTerminator maxFrame [] s).2] else []) := by
  rw [readings_append, run_singleton]
  by_cases hb : isTerminator b = true
  · rw [step_line hb, if_pos hb]
    rfl
  · rw [if_neg hb, step, if_neg hb]
    split <;> rfl

/-- A line in front of a stream is the first to be read. -/
theorem readings_line {l : List UInt8} {t : UInt8} (hl : Open isTerminator l)
    (ht : isTerminator t = true) (hlen : l.length ≤ maxFrame) (s : List UInt8) :
    readings (l ++ t :: s) = readResponse l :: readings s := by
  rw [List.append_cons, readings_append, run_line hl ht (by simpa using hlen), readings,
    run_line hl ht (by simpa using hlen), List.filterMap_append, List.filterMap_replicate_of_none rfl]
  rfl

/-! ## One send -/

/-- What a result was read from, if from a line. -/
def lineOf : Except (Error ε) Response → Option (Except ParseError Response)
  | .ok r => some (.ok r)
  | .error (.parse p) => some (.error p)
  | .error _ => none

theorem lineOf_mapError (r : Except ParseError Response) :
    lineOf (r.mapError .parse : Except (Error ε) Response) = some r := by
  cases r <;> rfl

/-- **One read keeps the record**: the lines read so far stay, and a result
is read from a later one. -/
theorem InStep.record {lines : List (Except ParseError Response)} (sent : List UInt8)
    {a : Listener (Traced T)} (h : InStep a)
    (hlines : lines <+: readings a.transport.received) :
    Sum.elim (fun a' => lines <+: readings a'.transport.received)
      (fun heard : Heard (Traced T) ε => ∃ later,
        readings heard.transport.received = lines ++ later ∧
        (lineOf heard.result).toList.Sublist later)
      (a.step sent) := by
  obtain ⟨later, hlater⟩ := hlines
  have hlen := Transport.read_length (T := T) a.transport.inner a.byte
  cases hread : Transport.read a.transport.inner a.byte with
  | mk out inner =>
  obtain ⟨n, byte⟩ := out
  rw [hread, h.byte] at hlen
  obtain ⟨b, rfl⟩ := List.length_eq_one_iff.mp hlen
  rw [Listener.step, a.transport.read_eq hread, h.pending]
  rcases n with e | _ | k
  · refine ⟨later, ?_, List.nil_sublist _⟩
    simp only [Traced.delivered, List.append_nil]
    exact hlater.symm
  · refine ⟨later, ?_, List.nil_sublist _⟩
    simp only [Traced.delivered, List.take_zero, List.append_nil]
    exact hlater.symm
  · -- a byte has arrived
    have hsnoc := readings_snoc a.transport.received b
    rw [← hlater, List.append_assoc] at hsnoc
    simp only [Traced.delivered, List.take_succ_cons, List.take_nil, List.headD_cons]
    by_cases hb : isTerminator b = true
    · simp only [hb, if_true] at hsnoc ⊢
      split
      · exact ⟨_, hsnoc.symm⟩
      · refine ⟨_, hsnoc, ?_⟩
        rw [lineOf_mapError]
        exact List.sublist_append_right _ _
    · simp only [hb, Bool.false_eq_true, if_false]
      exact ⟨_, hsnoc.symm⟩

/-- A send answers with a line that it has received. -/
theorem Session.Sends.record {s s' : Session (Traced T)} {c : Command}
    {r : Except (Error ε) Response} (h : s.Sends c r s')
    (hs : s.parser.Holds s.transport.pending) :
    ∃ later, readings s'.transport.received = readings s.transport.received ++ later ∧
      (lineOf r).toList.Sublist later := by
  have hwrite : ∀ w t, Transport.write s.transport (c.payload ++ [byte '\r']) = (w, t) →
      t.received = s.transport.received := by
    intro w t hw
    rw [show t = (Transport.write s.transport (c.payload ++ [byte '\r'])).2 by rw [hw]]
    rfl
  obtain ⟨msg, buf, -, rfl, rfl⟩ | ⟨-, e, t, hw, rfl, rfl⟩ | ⟨-, t, l', hw, -, hhalts⟩ :=
    h.cases hs
  · exact ⟨[], by simp, List.nil_sublist _⟩
  · exact ⟨[], by simp [hwrite _ _ hw], List.nil_sublist _⟩
  · have hpending : s.transport.pending = t.pending := by
      rw [Traced.pending, Traced.pending, hwrite _ _ hw]
    refine hhalts.invariant
      (P := fun a => InStep a ∧ readings s.transport.received <+: readings a.transport.received)
      (Q := fun heard => ∃ later, readings heard.transport.received
        = readings s.transport.received ++ later ∧ (lineOf heard.result).toList.Sublist later)
      ⟨⟨rfl, hpending⟩, ?_⟩ ?_ ?_
    · rw [Listener.start, hwrite _ _ hw]
    · intro a a' ha hstep
      have hin := ha.1.step (ε := ε) c.payload
      have hrec := ha.1.record (ε := ε) c.payload ha.2
      rw [hstep] at hin hrec
      exact ⟨hin, hrec⟩
    · intro a heard ha hstep
      have hrec := ha.1.record (ε := ε) c.payload ha.2
      rwa [hstep] at hrec

/-! ## All sends -/

theorem SendAll.record {s s' : Session (Traced T)}
    {rs : List (Command × Except (Error ε) Response)} (h : SendAll s rs s')
    (hs : s.parser.Holds s.transport.pending) :
    ∃ later, readings s'.transport.received = readings s.transport.received ++ later ∧
      (rs.filterMap fun x => lineOf x.2).Sublist later := by
  induction h with
  | nil => exact ⟨[], by simp, List.nil_sublist _⟩
  | @cons s s₁ s' c r rs hsend _ ih =>
      obtain ⟨first, hfirst, hsub⟩ := hsend.record hs
      obtain ⟨later, hlater, hrest⟩ := ih (hsend.pending hs)
      refine ⟨first ++ later, by rw [hlater, hfirst, List.append_assoc], ?_⟩
      have happ := hsub.append hrest
      rw [List.filterMap_cons]
      cases hline : lineOf r with
      | none => rwa [hline] at happ
      | some l => rwa [hline] at happ

/-- **The results of a session are lines it received**, in their order,
none used twice. Of a line that is longer than the buffer, the end is read
that is behind the overflows. -/
theorem results_are_lines (t : T) (rs : List (Command × Except (Error ε) Response))
    (s : Session (Traced T)) (h : SendAll (Session.new ⟨t, []⟩) rs s) :
    (rs.filterMap fun x => lineOf x.2).Sublist
      ((splitLines isTerminator s.transport.received).1.map fun l =>
        readResponse (l.drop (l.length / (maxFrame + 1) * (maxFrame + 1)))) := by
  obtain ⟨later, hlater, hsub⟩ := h.record Parser.new_holds
  rw [readings_eq] at hlater
  exact hlater ▸ hsub

/-- A stop that is echoed before it is acknowledged. -/
theorem results_are_lines_stop :
    ∃ s : Session (Traced (Scripted Empty)),
      SendAll (Session.new ⟨⟨[], [bytes "S\r+\r"], none, []⟩, []⟩) [(.stop, .ok .ack)] s ∧
      ([(Command.stop, (.ok .ack : Except (Error Empty) Response))].filterMap
        fun x => lineOf x.2).Sublist
        ((splitLines isTerminator s.transport.received).1.map fun l =>
          readResponse (l.drop (l.length / (maxFrame + 1) * (maxFrame + 1)))) := by
  have hd := (Scripted.delivers (ε := Empty) (bytes "S\r+\r") [] [] none
    [.write (bytes "S\r")]).traced []
  obtain ⟨s, hs, -, -⟩ := sends_answer (c := .stop) (r := .ack) trivial trivial (by simp)
    (Session.new (⟨⟨[], [bytes "S\r+\r"], none, []⟩, []⟩ : Traced (Scripted Empty)))
    Parser.new_holds [byte '\r'] (List.forall_mem_singleton.mpr rfl) rfl hd
  exact ⟨s, .cons hs (.nil s), results_are_lines _ _ s (.cons hs (.nil s))⟩

end Easycom
