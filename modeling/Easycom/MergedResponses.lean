import Easycom.BitErrors
import Easycom.ResponseFraming
import Easycom.Stream.Merged

/-!
# Easycom — MergedResponses

Terminators that get lost on the way to the host. A line of several
responses is read as one of them, or it is an error (`merged_text`): the
position rule finds the first position of both axes wherever it stands,
and without one only the first response can be read. So a host makes up no
response, and reports those that arrive alone
(`lostTerminators_responses`).
-/

namespace Easycom

open Rust Stream

/-- The text of a merged line. -/
def mergedText (rs : List Response) : List UInt8 := rs.flatMap Response.payload

/-- Not a position of both axes. -/
def Response.NoPosition (r : Response) : Prop := ∀ az el, r ≠ .position az el

/-! ## Labels -/

/-- A label of three bytes does not begin before `c`. -/
theorem not_prefix_before {x y z c : UInt8} {q s : List UInt8} (hq : ¬ [y, z] <:+: q) (hy : c ≠ y)
    (hz : c ≠ z) {j : Nat} (hj : j < q.length) : ¬ [x, y, z] <+: (q ++ c :: s).drop j := by
  intro h
  rw [List.drop_append_of_le_length (Nat.le_of_lt hj)] at h
  cases hv : q.drop j with
  | nil =>
      rw [List.drop_eq_nil_iff] at hv
      omega
  | cons a v =>
      rw [hv] at h
      cases v with
      | nil =>
          simp at h
          exact hy h.2.1.symm
      | cons b v =>
          cases v with
          | nil =>
              simp at h
              exact hz h.2.2.symm
          | cons d v =>
              simp at h
              obtain ⟨rfl, rfl, rfl⟩ := h
              have hsplit := List.take_append_drop j q
              rw [hv] at hsplit
              exact hq ⟨q.take j ++ [x], v, by simpa using hsplit⟩

/-- What stands in front of a labelled value does not matter, if the label
does not occur there. -/
theorem LabelledText.prepend {x y z c : UInt8} {q p : List UInt8} {v : Nat}
    (h : LabelledText [x, y, z] (c :: p) v) (hq : ¬ [y, z] <:+: q) (hy : c ≠ y) (hz : c ≠ z) :
    LabelledText [x, y, z] (q ++ c :: p) v := by
  generalize hs : c :: p = s at h
  cases h with
  | @mk pre ds post _ hlen hnum hfirst =>
      have hfirst' : ∀ j < (q ++ pre).length,
          ¬ [x, y, z] <+: (q ++ pre ++ ([x, y, z] ++ (ds ++ post))).drop j := by
        intro j hj
        rw [List.append_assoc]
        rcases Nat.lt_or_ge j q.length with hlt | hge
        · rw [← hs]
          exact not_prefix_before hq hy hz hlt
        · rw [List.length_append] at hj
          rw [List.drop_append, List.drop_of_length_le hge, List.nil_append]
          exact hfirst (j - q.length) (by omega)
      rw [← List.append_assoc]
      exact .mk hlen hnum hfirst'

/-- The letter in front of `=` in a labelled value. -/
theorem LabelledText.occurs {x y : UInt8} {p : List UInt8} {v : Nat}
    (h : LabelledText [x, y, byte '='] p v) : [y, byte '='] <:+: p := by
  cases h with
  | @mk pre ds post _ _ _ _ => exact ⟨pre ++ [x], ds ++ post, by simp⟩

/-- A byte that goes on none of the fields of a response. -/
structure Opens (b : UInt8) : Prop where
  digit : isDigit b = false
  equals : b ≠ byte '='
  word : ∀ st, b ∉ bytes (statusToStr st)

/-- No response opens with a byte that continues the one before. -/
theorem Response.payload_head (r : Response) : ∃ b t, r.payload = b :: t ∧ Opens b := by
  cases r <;> exact ⟨_, _, rfl, by decide, by decide, fun st => by cases st <;> decide⟩

theorem mergedText_cons (r : Response) (rs : List Response) :
    mergedText (r :: rs) = r.payload ++ mergedText rs := List.flatMap_cons

theorem mergedText_head (rs : List Response) :
    mergedText rs = [] ∨ ∃ b t, mergedText rs = b :: t ∧ Opens b := by
  cases rs with
  | nil => exact .inl rfl
  | cons r rs =>
      obtain ⟨b, t, hr, hb⟩ := r.payload_head
      exact .inr ⟨b, t ++ mergedText rs, by rw [mergedText_cons, hr]; rfl, hb⟩

/-! ## Positions in a merged line -/

/-- No response but a position has a label of one. -/
theorem Response.NoPosition.no_label {r : Response} (h : r.NoPosition) {y : UInt8}
    (hy : y = byte 'Z' ∨ y = byte 'L') : ¬ [y, byte '='] <:+: r.payload := by
  intro hin
  have hequals : byte '=' ∈ r.payload := hin.subset (by simp)
  have hletter : y ∈ r.payload := hin.subset (by simp)
  have hdigit : isDigit (byte '=') = false := by decide
  have hminus : byte '=' ≠ byte '-' := by decide
  cases r with
  | position az el => exact h az el rfl
  | status st => rcases hy with rfl | rfl <;> cases st <;> revert hletter <;> decide
  | _ =>
      revert hequals
      simp only [payload, List.mem_append, not_mem_digits3 hdigit, not_mem_decimal hdigit,
        not_mem_decimalInt hdigit hminus, or_false]
      decide

theorem no_label_mergedText {rs : List Response} (h : ∀ r ∈ rs, r.NoPosition) {y : UInt8}
    (hy : y = byte 'Z' ∨ y = byte 'L') : ¬ [y, byte '='] <:+: mergedText rs := by
  induction rs with
  | nil =>
      intro hin
      have hmem : y ∈ mergedText [] := hin.subset (by simp)
      cases hmem
  | cons r rs ih =>
      intro hin
      rw [mergedText_cons] at hin
      rcases List.infix_append_iff_ne_nil.mp hin with hin | hin | ⟨l, l', hl, hl', heq, -, hpre⟩
      · exact (h r List.mem_cons_self).no_label hy hin
      · exact ih (fun r hr => h r (List.mem_cons_of_mem _ hr)) hin
      · -- the equals sign would open the rest
        obtain ⟨a, l, rfl⟩ := List.exists_cons_of_ne_nil hl
        obtain ⟨a', l', rfl⟩ := List.exists_cons_of_ne_nil hl'
        have hlen := congrArg List.length heq
        obtain rfl : l = [] := List.eq_nil_of_length_eq_zero (by simp at hlen; omega)
        obtain ⟨-, rfl, rfl⟩ : y = a ∧ byte '=' = a' ∧ [] = l' := by simpa using heq
        rcases mergedText_head rs with hnil | ⟨b, t, hb, hopens⟩
        · rw [hnil] at hpre
          simp at hpre
        · rw [hb] at hpre
          exact hopens.equals (List.head_eq_of_cons_eq hpre.choose_spec).symm

/-- Without a position among them, responses make none. -/
theorem not_positionText_mergedText {rs : List Response} (h : ∀ r ∈ rs, r.NoPosition)
    (az el : UInt16) : ¬ PositionText (mergedText rs) az el :=
  fun hpos => no_label_mergedText h (.inl rfl) hpos.az.occurs

/-- The first position of a merged line is found. -/
theorem positionText_mergedText {rs rs' : List Response} {az el : UInt16}
    (hr : (Response.position az el).InRange) (h : ∀ r ∈ rs, r.NoPosition)
    (hv : Utf8.Valid (mergedText (rs ++ .position az el :: rs'))) :
    PositionText (mergedText (rs ++ .position az el :: rs')) az el := by
  have htext : mergedText (rs ++ .position az el :: rs')
      = mergedText rs ++ ((Response.position az el).payload ++ mergedText rs') := by
    simp [mergedText]
  have haz : az.toNat < 1000 := Nat.lt_succ_of_le (UInt16.le_iff_toNat_le.mp hr.1)
  have hel : el.toNat < 1000 := Nat.lt_succ_of_le (UInt16.le_iff_toNat_le.mp hr.2)
  obtain ⟨hlabel, hlabel'⟩ := position_text haz hel
  rw [htext] at hv ⊢
  refine ⟨?_, hv, ?_, ?_⟩
  · simp [Response.payload, bytes, digits3]
    omega
  · exact (hlabel.append (mergedText rs')).prepend (no_label_mergedText h (.inl rfl)) (by decide)
      (by decide)
  · exact (hlabel'.append (mergedText rs')).prepend (no_label_mergedText h (.inr rfl)) (by decide)
      (by decide)

theorem first_position (rs : List Response) :
    (∀ r ∈ rs, r.NoPosition) ∨
      ∃ pre az el post, rs = pre ++ .position az el :: post ∧ ∀ r ∈ pre, r.NoPosition := by
  induction rs with
  | nil => exact .inl (by simp)
  | cons r rs ih =>
      by_cases hr : r.NoPosition
      · rcases ih with ih | ⟨pre, az, el, post, rfl, hpre⟩
        · exact .inl (List.forall_mem_cons.mpr ⟨hr, ih⟩)
        · exact .inr ⟨r :: pre, az, el, post, rfl, List.forall_mem_cons.mpr ⟨hr, hpre⟩⟩
      · simp only [Response.NoPosition, not_forall, not_not] at hr
        obtain ⟨az, el, rfl⟩ := hr
        exact .inr ⟨[], az, el, rs, rfl, by simp⟩

/-- **What a merged line spells**, if anything, is one of its responses:
its first position, or without one its first response. -/
theorem merged_text {rs : List Response} (hne : rs ≠ []) (hrange : ∀ r ∈ rs, r.InRange)
    {d : Response} (h : ResponseText (mergedText rs) d) : d ∈ rs := by
  rcases first_position rs with hno | ⟨pre, az, el, post, rfl, hpre⟩
  · obtain ⟨r, rs, rfl⟩ := List.exists_cons_of_ne_nil hne
    have hr := hrange r List.mem_cons_self
    have hpos := not_positionText_mergedText hno
    rw [mergedText_cons] at h hpos
    rcases mergedText_head rs with hnil | ⟨b, t, hb, hopens⟩
    · rw [hnil, List.append_nil] at h
      rw [h.unique (Response.payload_text hr)]
      exact List.mem_cons_self
    · rw [hb] at h hpos
      rw [h.of_payload hr hopens.digit hopens.word fun _ => hpos]
      exact List.mem_cons_self
  · have hr := hrange (.position az el) (by simp)
    rw [h.unique (.position (positionText_mergedText hr hpre h.valid))]
    simp

/-! ## The stream -/

/-- What a line of a stream is read as, if it is a response. -/
def responseOf (l : List UInt8) : Option Response := (readResponse l).toOption

theorem responseOf_eq_some {l : List UInt8} {r : Response} :
    responseOf l = some r ↔ readResponse l = .ok r := by
  rw [responseOf]
  cases readResponse l with
  | ok r' => simp [Except.toOption]
  | error e => simp [Except.toOption]

theorem mergedText_received (rs : List Response) :
    mergedText (rs.map Response.received) = mergedText rs := by
  rw [mergedText, List.flatMap_map]
  exact List.flatMap_congr fun r _ => r.payload_received

theorem mergedText_plain (rs : List Response) : Plain (mergedText rs) := by
  intro b hb
  obtain ⟨r, -, hr⟩ := List.mem_flatMap.mp hb
  exact r.payload_plain b hr

/-- A line of responses is read as one of them, or not at all. -/
theorem readsFrames_responses :
    ReadsFrames Response.payload responseOf Response.received fun _ => True where
  one r _ := responseOf_eq_some.mpr (readResponse_received r)
  merged rs _ hne d hd := by
    have hplain := mergedText_plain rs
    have hread : readResponse (mergedText rs) = .ok d := responseOf_eq_some.mp hd
    have htext : ResponseText (mergedText rs) d := by
      obtain ⟨-, hframe⟩ := (readResponse_line hplain.is_open).mp hread
      generalize hs : mergedText rs = s at hframe
      cases hframe with
      | plain _ h => exact h
      | checked =>
          refine absurd ?_ hplain.star_not_mem
          rw [hs]
          simp
    rw [← mergedText_received] at htext
    have hmem := merged_text (by simpa using hne) (by simp [Response.received_inRange]) htext
    obtain ⟨r, hr, rfl⟩ := List.mem_map.mp hmem
    exact ⟨r, hr, rfl⟩

/-- The bytes that arrive of the responses of a device. -/
def arrivedResponses (xs : List (Transmitted Response)) : List UInt8 :=
  arrived Response.payload Response.terminator xs

/-- **Lost terminators.** Responses are sent and any of the terminators is
lost; what arrives is cut into slices in any way, and no line of it is
longer than the buffer. Of each line a fresh parser returns one of the
responses on it, or no response, and the response if there is but one; so
none is returned that was not sent, and the order is kept. Angles come back
modulo 1000. -/
theorem lostTerminators_responses (xs : List (Transmitted Response))
    (hfits : ∀ l ∈ (splitLines isTerminator (arrivedResponses xs)).1, l.length ≤ maxFrame)
    (chunks : List (List UInt8)) (hchunks : chunks.flatten = arrivedResponses xs) :
    (∀ x ∈ xs, ∀ buf : List UInt8, 32 ≤ buf.length →
      x.frame.sent buf = .ok (x.frame.payload ++ [x.frame.terminator])) ∧
    ∃ outs parser, Parser.new.feedChunks chunks = .ok (outs, parser) ∧
      Merged Response.payload responseOf Response.received xs
        (outs.filterMap Except.toOption) := by
  refine ⟨fun x _ buf hbuf => Response.sent_eq hbuf, ?_⟩
  obtain ⟨⟨outs, parser⟩, hfeed, houts, -⟩ :=
    Parser.feedAll_returns Parser.new_holds (arrivedResponses xs)
  have hlines : outs.reduceOption.filterMap Except.toOption
      = (splitLines isTerminator (arrivedResponses xs)).1.filterMap responseOf := by
    have hrun : outs.reduceOption.filterMap Except.toOption
        = (run isTerminator maxFrame [] (arrivedResponses xs)).1.filterMap
            fun e => (responseEvent e).bind Except.toOption := by
      rw [show outs = _ from houts, List.reduceOption, List.filterMap_filterMap,
        List.filterMap_map]
      rfl
    rw [hrun, filterMap_run rfl rfl]
    refine List.filterMap_congr fun l hl => ?_
    rw [residue_of_le (hfits l hl)]
    rfl
  refine ⟨outs.reduceOption, parser, ?_, ?_⟩
  · rw [Parser.feedChunks_eq, hchunks, Parser.feedSlice_eq, hfeed]
    rfl
  · rw [hlines]
    exact merged_lines readsFrames_responses (fun r => r.payload_plain.is_open)
      Response.terminator_isTerminator fun _ _ => trivial

/-- A status without its terminator in front of a position, and a register
alone, in two slices. -/
theorem lostTerminators_responses_three :
    ∃ outs parser, Parser.new.feedChunks [bytes "ST=id", bytes "leAZ=010 EL=020\rGS7\n"]
        = .ok (outs, parser) ∧
      Merged Response.payload responseOf Response.received
        [⟨.status .idle, false⟩, ⟨.position 10 20, true⟩, ⟨.statusRegister 7, true⟩]
        (outs.filterMap Except.toOption) :=
  (lostTerminators_responses
    [⟨.status .idle, false⟩, ⟨.position 10 20, true⟩, ⟨.statusRegister 7, true⟩]
    (by decide) _ (by decide)).2

end Easycom
