import Easycom.Frames
import Easycom.Stream.Change

/-!
# Easycom — BitErrors

A checksummed response with one bit inverted anywhere is decoded to itself
or not at all (`bitError_detected`). In the payload the error changes the
XOR (`xorChecksum_changed`); in a digit it leaves the value, changes it, or
leaves no digit; at the terminator it appends a byte that is ignored. An
inverted bit of the star takes the checksum away, and what is left is the
payload with three bytes too many (`extended_payload`).
-/

namespace Easycom

open Rust Stream

/-- `c` is `b` with one bit inverted. -/
def BitFlip (b c : UInt8) : Prop := ∃ k < 8, c = b ^^^ (1 <<< UInt8.ofNat k)

/-- The frame of a response with a checksum, without its terminator. -/
def Response.checkedPayload (r : Response) : List UInt8 :=
  r.payload ++ checksumSuffix (xorChecksum r.payload)

/-! ## Errors in the payload -/

theorem BitFlip.ne {b c : UInt8} (h : BitFlip b c) : b ≠ c := by
  obtain ⟨k, hk, rfl⟩ := h
  have hbit : ∀ k < 8, (1 : UInt8) <<< UInt8.ofNat k ≠ 0 := by decide
  intro heq
  rw [← UInt8.xor_zero (a := b), UInt8.xor_assoc, UInt8.xor_right_inj, UInt8.zero_xor] at heq
  exact hbit k hk heq.symm

/-- **The checksum detects every single bit error.** -/
theorem xorChecksum_changed {p p' : List UInt8} (h : Changed BitFlip p p') :
    xorChecksum p ≠ xorChecksum p' := by
  refine h.foldl_ne (fun a x y hxy => ?_) (fun x a b hab hxy => ?_) 0
  · exact (UInt8.xor_left_inj a).mp hxy
  · exact hab.ne ((UInt8.xor_right_inj x).mp hxy)

/-! ## An error in the star -/

/-- Neither a star nor a byte of the fields of a response: neither a digit,
nor a Z, nor in the word of a status. -/
structure Foreign (c : UInt8) : Prop where
  star : c ≠ byte '*'
  digit : isDigit c = false
  letter : c ≠ byte 'Z'
  word : ∀ st, c ∉ bytes (statusToStr st)

theorem BitFlip.foreign {c : UInt8} (h : BitFlip (byte '*') c) : Foreign c := by
  obtain ⟨k, hk, rfl⟩ := h
  have hall : ∀ k < 8, byte '*' ^^^ (1 <<< UInt8.ofNat k) ≠ byte '*' ∧
      isDigit (byte '*' ^^^ (1 <<< UInt8.ofNat k)) = false ∧
      byte '*' ^^^ (1 <<< UInt8.ofNat k) ≠ byte 'Z' := by decide
  have hword : ∀ st, ∀ k < 8,
      byte '*' ^^^ (1 <<< UInt8.ofNat k) ∉ bytes (statusToStr st) := by
    intro st
    cases st <;> decide
  obtain ⟨h1, h2, h3⟩ := hall k hk
  exact ⟨h1, h2, h3, fun st => hword st k hk⟩

/-- A number is over at the first foreign byte. -/
theorem not_numeral_append {ds s : List UInt8} {c : UInt8} {v : Nat} (hds : Digits ds)
    (hc : isDigit c = false) : ¬ Numeral (ds ++ c :: s) v := by
  intro h
  cases ds with
  | nil => exact hds.ne_nil rfl
  | cons d ds =>
      have hd := hds.head
      have hne : d ≠ byte '+' := by
        rintro rfl
        exact absurd hd (by decide)
      have hdigits := ((numeral_of_ne hne).mp h).1
      exact hdigits.not_mem hc (by simp)

theorem not_signedNumeral_append {n v : Int} {s : List UInt8} {c : UInt8}
    (hc : isDigit c = false) : ¬ SignedNumeral (decimalInt n ++ c :: s) v := by
  intro h
  have hdec := decimal_digits n.natAbs
  rw [decimalInt] at h
  split at h
  · rw [List.cons_append, signedNumeral_minus] at h
    exact h.1.not_mem hc (by simp)
  · obtain ⟨d, ds, hds⟩ := List.exists_cons_of_ne_nil hdec.ne_nil
    rw [hds] at h hdec
    have hne : d ≠ byte '-' := by
      rintro rfl
      exact absurd hdec.head (by decide)
    obtain ⟨m, hm, -⟩ := (signedNumeral_of_ne hne).mp h
    exact not_numeral_append hdec hc hm

/-- Only positions have a Z. -/
theorem Response.payload_no_letter {r : Response} (haz : ∀ az el, r ≠ .position az el)
    (hone : ∀ az, r ≠ .azimuthPosition az) : byte 'Z' ∉ r.payload := by
  have hdec : ∀ n, byte 'Z' ∉ decimal n := fun n => not_mem_decimal (by decide)
  cases r with
  | position az el => exact absurd rfl (haz az el)
  | azimuthPosition az => exact absurd rfl (hone az)
  | elevationPosition el =>
      simp only [payload, List.mem_append, not_or, not_mem_digits3 (by decide : isDigit (byte 'Z') = false)]
      decide
  | status st => cases st <;> decide
  | configValue reg val =>
      have hint : byte 'Z' ∉ decimalInt val.toInt :=
        not_mem_decimalInt (by decide) (by decide)
      simp only [payload, List.mem_append, not_or, hdec, hint]
      decide
  | _ =>
      simp only [payload, List.mem_append, not_or, hdec]
      decide

/-- Behind the payload of a response no other one is spelt, unless there is
a position in it: the single axes ignore what follows their dot, the other
forms end with their last field. -/
theorem ResponseText.of_payload {r r' : Response} {c : UInt8} {s : List UInt8} (hr : r.InRange)
    (hdigit : isDigit c = false) (hword : ∀ st, c ∉ bytes (statusToStr st))
    (hno : (∀ az el, r ≠ .position az el) → ∀ az el, ¬ PositionText (r.payload ++ c :: s) az el)
    (h : ResponseText (r.payload ++ c :: s) r') : r' = r := by
  have hv := h.valid
  have hown := Response.payload_text hr
  have haxis : ∀ n : UInt16, n ≤ 999 →
      AxisText (digits3 n.toNat ++ (bytes ".0" ++ c :: s)) n.toNat := by
    intro n hn
    have hlt := UInt16.le_iff_toNat_le.mp hn
    exact .bare (.fraction (digits3_numeral (Nat.lt_succ_of_le hlt)) _)
  cases r with
  | position az el =>
      cases hown with
      | position hown => exact h.unique (.position (hown.append hv))
  | azimuthPosition az =>
      have hone := hno (by simp)
      have hq : (Response.azimuthPosition az).payload ++ c :: s
          = bytes "AZ" ++ (digits3 az.toNat ++ (bytes ".0" ++ c :: s)) := by
        simp [Response.payload]
      rw [hq] at h hv hone
      exact h.unique (.azimuth ((Utf8.valid_append (by decide)).mp hv) (haxis az hr) hone)
  | elevationPosition el =>
      have hone := hno (by simp)
      have hq : (Response.elevationPosition el).payload ++ c :: s
          = bytes "EL" ++ (digits3 el.toNat ++ (bytes ".0" ++ c :: s)) := by
        simp [Response.payload]
      rw [hq] at h hv hone
      exact h.unique (.elevation ((Utf8.valid_append (by decide)).mp hv) (haxis el hr) hone)
  | ack | error =>
      have hlabel := h.cases_label (hno (by simp))
      simp [Response.payload, bytes, byte] at hlabel
  | status st =>
      have hlabel := h.cases_label (hno (by simp))
      obtain ⟨st', heq⟩ : ∃ st', bytes (statusToStr st) ++ c :: s = bytes (statusToStr st') := by
        simp [Response.payload, bytes, byte] at hlabel ⊢
        exact hlabel.imp fun _ h => h.1
      exact absurd (heq ▸ by simp) (hword st')
  | statusRegister val | errorRegister val =>
      have hlabel := h.cases_label (hno (by simp))
      obtain ⟨v, hv⟩ : ∃ v : UInt16, Numeral (decimal val.toNat ++ c :: s) v.toNat := by
        simp [Response.payload, bytes, byte] at hlabel
        exact hlabel.imp fun _ h => h.2
      exact absurd hv (not_numeral_append (decimal_digits _) hdigit)
  | configValue reg val =>
      have hlabel := h.cases_label (hno (by simp))
      obtain ⟨r, v, hv⟩ : ∃ r v, RegisterText
          (decimal reg.toNat ++ byte ',' :: (decimalInt val.toInt ++ c :: s)) r v := by
        simp [Response.payload, bytes, byte] at hlabel ⊢
        obtain ⟨r, v, -, h⟩ := hlabel
        exact ⟨_, _, h⟩
      rw [registerText_split (not_mem_decimal (by decide))] at hv
      exact absurd hv.2 (not_signedNumeral_append hdigit)

/-- **A payload with foreign bytes behind it** spells its own response or
none: with three bytes a single axis is too short for a position, and the
other forms have no Z. -/
theorem extended_payload {r r' : Response} {c : UInt8} {s : List UInt8} (hr : r.InRange)
    (hc : Foreign c) (hs : byte 'Z' ∉ s) (hlen : s.length = 2)
    (h : ResponseText (r.payload ++ c :: s) r') : r' = r := by
  refine h.of_payload hr hc.digit hc.word fun haz az el hpos => ?_
  have hletter := hpos.az.label_mem (b := byte 'Z') (by decide)
  by_cases hone : ∀ n, r ≠ .azimuthPosition n
  · simp [Response.payload_no_letter haz hone, hs, hc.letter.symm] at hletter
  · obtain ⟨n, rfl⟩ := not_forall_not.mp hone
    have hroom := hpos.length
    simp [Response.payload, hlen, bytes] at hroom

/-! ## An error anywhere -/

/-- A digit the encoder writes, and what an error can make of it. -/
structure TableDigit (b : UInt8) : Prop where
  star : b ≠ byte '*'
  letter : b ≠ byte 'Z'
  is_open : isTerminator b = false
  flip_open : ∀ c, BitFlip b c → isTerminator c = false

theorem tableDigit {n : Nat} (hn : n < 16) : TableDigit (hexDigits.getD n 0) := by
  have hall : ∀ n < 16, hexDigits.getD n 0 ≠ byte '*' ∧ hexDigits.getD n 0 ≠ byte 'Z' ∧
      isTerminator (hexDigits.getD n 0) = false := by decide
  have hflip : ∀ n < 16, ∀ k < 8,
      isTerminator (hexDigits.getD n 0 ^^^ (1 <<< UInt8.ofNat k)) = false := by decide
  obtain ⟨hstar, hletter, hopen⟩ := hall n hn
  refine ⟨hstar, hletter, hopen, ?_⟩
  rintro c ⟨k, hk, rfl⟩
  exact hflip n hn k hk

theorem checksumSuffix_digits (v : UInt8) : ∃ h l, checksumSuffix v = [byte '*', h, l] ∧
    hexByte h l = some v ∧ TableDigit h ∧ TableDigit l := by
  obtain ⟨i, j, hi, hj, hsuffix, hsum⟩ := checksumSuffix_table v
  exact ⟨_, _, hsuffix, hsum, tableDigit hi, tableDigit hj⟩

theorem BitFlip.terminator_open {t c : UInt8} (ht : isTerminator t = true)
    (h : BitFlip t c) : isTerminator c = false := by
  obtain ⟨k, hk, rfl⟩ := h
  have hall : ∀ k < 8, isTerminator (byte '\r' ^^^ (1 <<< UInt8.ofNat k)) = false ∧
      isTerminator (byte '\n' ^^^ (1 <<< UInt8.ofNat k)) = false := by decide
  simp only [isTerminator, Bool.or_eq_true, beq_iff_eq] at ht
  rcases ht with rfl | rfl
  · exact (hall k hk).1
  · exact (hall k hk).2

/-- Three bytes behind a text, the last of which is no terminator. -/
theorem decode_three {p : List UInt8} {c h l t : UInt8} (hl : isTerminator l = false)
    (ht : isTerminator t = true) :
    decode (p ++ [c, h, l] ++ [t]) = decodeTrimmed (p ++ c :: [h, l]) := by
  simpa using decode_closed (f := p ++ [c, h]) hl ht

/-- Not another response than `r`: `r`, or an error. -/
def NotMisread (r : Response) (x : Exec (Except ParseError Response)) : Prop :=
  x = .ok (.ok r) ∨ ∃ e, x = .ok (.error e)

section

variable {r : Response} {h l t : UInt8}

/-- Behind the payload of a response, whatever is taken for its checksum. -/
theorem notMisread_marked (hr : r.InRange) {s : List UInt8} (hun : Unmarked (h :: l :: s)) :
    NotMisread r (decodeTrimmed (r.payload ++ byte '*' :: h :: l :: s)) := by
  rw [decodeTrimmed_marked hun]
  cases hexByte h l with
  | none => exact .inr ⟨_, rfl⟩
  | some v =>
      by_cases hsum : xorChecksum r.payload = v
      · exact .inl ((if_pos hsum).trans (decodePayload_complete (Response.payload_text hr)))
      · exact .inr ⟨_, if_neg hsum⟩

theorem notMisread_payload {p : List UInt8} (hp : Changed BitFlip r.payload p)
    (hsum : hexByte h l = some (xorChecksum r.payload)) :
    NotMisread r (decodeTrimmed (p ++ byte '*' :: [h, l])) := by
  rw [decodeTrimmed_marked (unmarked_pair h l), hsum]
  exact .inr ⟨_, if_neg (xorChecksum_changed hp).symm⟩

theorem notMisread_star (hr : r.InRange) {c : UInt8} (hc : BitFlip (byte '*') c)
    (hh : TableDigit h) (hl : TableDigit l) :
    NotMisread r (decodeTrimmed (r.payload ++ c :: [h, l])) := by
  have hforeign := hc.foreign
  have hstar : byte '*' ∉ r.payload ++ c :: [h, l] := by
    simp only [List.mem_append, List.mem_cons, List.not_mem_nil, or_false, not_or]
    exact ⟨r.payload_plain.star_not_mem, hforeign.star.symm, hh.star.symm, hl.star.symm⟩
  have hZ : byte 'Z' ∉ [h, l] := by simp [hh.letter.symm, hl.letter.symm]
  rw [decodeTrimmed_unmarked (unmarked_of_not_mem hstar)]
  obtain ⟨x, hx, hiff⟩ := decodePayload_spec (r.payload ++ c :: [h, l])
  rw [hx]
  cases x with
  | error e => exact .inr ⟨e, rfl⟩
  | ok r' =>
      rw [extended_payload hr hforeign hZ rfl ((hiff r').mp rfl)]
      exact .inl rfl

/-- An error at the terminator leaves one byte behind the digits. -/
theorem notMisread_terminator (hr : r.InRange) (ht : isTerminator t = false)
    (hh : TableDigit h) : NotMisread r (decode (r.payload ++ [byte '*', h, l] ++ [t])) := by
  have hun : Unmarked (h :: l :: [t]) := unmarked_cons hh.star (unmarked_pair l t)
  rw [decode_eq (by simp), List.rdropWhile_concat_neg _ _ _ (by simp [ht])]
  simpa using notMisread_marked hr hun

end

/-- **A single bit error is never misread.** In a response with its
checksum, whichever bit of whichever byte is inverted, the decoder returns
the response or an error. -/
theorem bitError_detected (r : Response) (hr : r.InRange) (buf : List UInt8)
    (hroom : 32 ≤ buf.length) (f : List UInt8)
    (hf : Changed BitFlip (r.checkedPayload ++ [r.terminator]) f) :
    r.sent buf = .ok (r.payload ++ [r.terminator]) ∧ NotMisread r (decode f) := by
  refine ⟨Response.sent_eq hroom, ?_⟩
  have ht := r.terminator_isTerminator
  obtain ⟨h, l, hsuffix, hsum, hh, hl⟩ := checksumSuffix_digits (xorChecksum r.payload)
  rw [Response.checkedPayload, hsuffix] at hf
  rcases changed_append.mp hf with ⟨body, hbody, rfl⟩ | ⟨last, hlast, rfl⟩
  · rcases changed_append.mp hbody with ⟨p, hp, rfl⟩ | ⟨suffix, hsuf, rfl⟩
    · rw [decode_three hl.is_open ht]
      exact notMisread_payload hp hsum
    · rcases changed_cons.mp hsuf with ⟨c, hc, rfl⟩ | ⟨digits, hdig, rfl⟩
      · rw [decode_three hl.is_open ht]
        exact notMisread_star hr hc hh hl
      · rcases changed_cons.mp hdig with ⟨h', -, rfl⟩ | ⟨low, hlow, rfl⟩
        · rw [decode_three hl.is_open ht]
          exact notMisread_marked hr (unmarked_pair _ _)
        · rcases changed_cons.mp hlow with ⟨l', hl', rfl⟩ | ⟨_, hnil, -⟩
          · rw [decode_three (hl.flip_open l' hl') ht]
            exact notMisread_marked hr (unmarked_pair _ _)
          · exact absurd hnil not_changed_nil
  · rcases changed_cons.mp hlast with ⟨t, ht', rfl⟩ | ⟨_, hnil, -⟩
    · exact notMisread_terminator hr (ht'.terminator_open ht) hh
    · exact absurd hnil not_changed_nil

/-- The star of a position becomes an LF. -/
theorem bitError_detected_star :
    (Response.position 90 45).sent (List.replicate 32 0)
      = .ok ((Response.position 90 45).payload ++ [(Response.position 90 45).terminator]) ∧
    NotMisread (.position 90 45)
      (decode (bytes "AZ=090 EL=045" ++ byte '\n' :: bytes "3A\r")) := by
  refine bitError_detected (.position 90 45) (by simp [Response.InRange]) _ (by simp) _ ?_
  have hframe : (Response.position 90 45).checkedPayload ++ [(Response.position 90 45).terminator]
      = bytes "AZ=090 EL=045" ++ byte '*' :: bytes "3A\r" := by decide
  rw [hframe]
  exact changed_append.mpr (.inr ⟨_, .here ⟨5, by decide, by decide⟩, rfl⟩)

end Easycom
