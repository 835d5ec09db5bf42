import Easycom.Frames

/-!
# Easycom — CommandDecoding

Two places where `decode_command` reads more than the protocol says. It
cuts a checksum off without comparing it (`checksum_required_iff`), and a
frame of both axes whose elevation is out of range can still be read as a
set of the azimuth alone (`combinedSet_allOrNothing_iff`).
-/

namespace Easycom

open Rust

/-! ## Checksums of commands -/

/-- A frame with a star that is decoded although it carries no valid
checksum: the text before the last star is a command and what follows the
star is not its checksum, or too little follows the star for it to be cut
and the whole frame is a command (a status query or an angle with the star
in its free text). -/
inductive Unchecked : List UInt8 → Prop where
  | cut {p t : List UInt8} {c : Command} (ht : byte '*' ∉ t) (hlen : 2 ≤ t.length)
      (h : CommandText p c)
      (hsum : ∀ hi lo, t = [hi, lo] → hexByte hi lo ≠ some (xorChecksum p)) :
      Unchecked (p ++ byte '*' :: t)
  | short {p t : List UInt8} {c : Command} (ht : byte '*' ∉ t) (hlen : t.length < 2)
      (h : CommandText (p ++ byte '*' :: t) c) : Unchecked (p ++ byte '*' :: t)

/-- A checksummed frame, cut at its last star. -/
theorem checksummed_split {p t : List UInt8} (ht : byte '*' ∉ t) :
    Checksummed (p ++ byte '*' :: t) ↔
      ∃ hi lo, t = [hi, lo] ∧ hexByte hi lo = some (xorChecksum p) := by
  constructor
  · intro h
    generalize hu : p ++ byte '*' :: t = u at h
    cases h with
    | @mk q hi lo hsum =>
        obtain ⟨hhi, hlo⟩ := isPlain_hexByte hsum
        obtain ⟨rfl, rfl⟩ :=
          (append_cons_inj_last ht (plain_pair hhi hlo).star_not_mem).mp hu
        exact ⟨hi, lo, rfl, hsum⟩
  · rintro ⟨hi, lo, rfl, hsum⟩
    exact .mk hsum

/-- **When a command's checksum is checked.** A frame with a star is
decoded only with a valid checksum, unless it is one of the `Unchecked`
frames, and every one of those is decoded without. -/
theorem checksum_required_iff (frame : List UInt8) (hstar : byte '*' ∈ frame) :
    (∀ cmd, decodeCommand frame = .ok (some cmd) → Checksummed frame) ↔
      ¬ Unchecked frame := by
  have hdec : ∀ cmd, decodeCommand frame = .ok (some cmd) ↔
      ∃ p, Kept frame p ∧ CommandText p cmd := by
    intro cmd
    rw [decodeCommand_eq, ← readCommand_eq_some]
    exact ⟨Except.ok.inj, congrArg Except.ok⟩
  simp only [hdec]
  constructor
  · intro hall hun
    cases hun with
    | cut ht hlen h hsum =>
        obtain ⟨hi, lo, rfl, hcs⟩ := (checksummed_split ht).mp (hall _ ⟨_, .cut ht hlen, h⟩)
        exact hsum hi lo rfl hcs
    | short ht hlen h =>
        obtain ⟨hi, lo, rfl, -⟩ := (checksummed_split ht).mp (hall _ ⟨_, .short ht hlen, h⟩)
        simp at hlen
  · rintro hun cmd ⟨p, hp, h⟩
    by_contra hcs
    apply hun
    cases hp with
    | cut ht hlen =>
        refine .cut ht hlen h fun hi lo hpair hsum => hcs ?_
        exact (checksummed_split ht).mpr ⟨hi, lo, hpair, hsum⟩
    | short ht hlen => exact .short ht hlen h
    | bare hp => exact absurd hstar hp

/-- The criterion on the checksummed stop command. -/
theorem checksum_required_iff_stop :
    (∀ cmd, decodeCommand (bytes "S*53") = .ok (some cmd) → Checksummed (bytes "S*53")) ↔
      ¬ Unchecked (bytes "S*53") :=
  checksum_required_iff _ (by decide)

/-- `S*00`: the XOR of the payload is 53, and the device stops. -/
theorem wrong_checksum_accepted :
    ¬ ∀ cmd, decodeCommand (bytes "S*00") = .ok (some cmd) → Checksummed (bytes "S*00") := by
  intro hall
  have hcs := hall .stop (by decide)
  obtain ⟨hi, lo, hpair, hsum⟩ :=
    (@checksummed_split (bytes "S") (bytes "00") (by decide)).mp hcs
  cases hpair
  exact absurd hsum (by decide)

/-! ## Combined sets -/

/-- An optional fraction: a dot and any digits. -/
def Fraction (f : List UInt8) : Prop :=
  f = [] ∨ ∃ ds, f = byte '.' :: ds ∧ ∀ b ∈ ds, isDigit b = true

/-- The frame `AZ<a> EL<e>`, each number with its fraction. -/
def combinedFrame (a fa e fe : List UInt8) : List UInt8 :=
  bytes "AZ" ++ (a ++ fa) ++ byte ' ' :: (bytes "EL" ++ (e ++ fe))

theorem angleText_fraction {a fa : List UInt8} {v : Nat} (ha : Digits a)
    (hfa : Fraction fa) : AngleText (a ++ fa) v ↔ v = digitsValue a := by
  have hnum : Numeral a (digitsValue a) := .plain ha
  have hval : Numeral a v ↔ v = digitsValue a :=
    ⟨fun h => h.unique hnum, fun h => h ▸ hnum⟩
  have hdot : byte '.' ∉ a := ha.not_mem (by decide)
  rcases hfa with rfl | ⟨ds, rfl, -⟩
  · rw [List.append_nil, angleText_of_no_dot hdot, hval]
  · rw [angleText_of_dot hdot, hval]

/-- A space before the first dot is in no angle. -/
theorem not_angleText_space {x t : List UInt8} {v : Nat} (hx : byte '.' ∉ x) :
    ¬ AngleText (x ++ byte ' ' :: t) v := by
  intro h
  have hspace : ∀ {s n}, Numeral s n → byte ' ' ∉ s := fun hn =>
    not_mem_numeral hn (by decide) (by decide)
  generalize hu : x ++ byte ' ' :: t = u at h
  cases h with
  | whole h =>
      subst hu
      exact hspace h (by simp)
  | @fraction s _ h frac =>
      rcases List.append_eq_append_iff.mp hu with ⟨a, rfl, ha⟩ | ⟨a, rfl, ha⟩
      · cases a with
        | nil => exact absurd (List.head_eq_of_cons_eq ha) (by decide)
        | cons b a =>
            obtain rfl := List.head_eq_of_cons_eq ha
            exact hspace h (by simp)
      · cases a with
        | nil => exact absurd (List.head_eq_of_cons_eq ha) (by decide)
        | cons b a =>
            obtain rfl := List.head_eq_of_cons_eq ha
            exact hx (by simp)

/-- The azimuth rule alone, on what follows `AZ`: it reads as far as the
first dot. -/
theorem angleText_rest {a fa t : List UInt8} {v : Nat} (ha : Digits a)
    (hfa : Fraction fa) :
    AngleText (a ++ fa ++ byte ' ' :: t) v ↔ fa ≠ [] ∧ v = digitsValue a := by
  have hnum : Numeral a (digitsValue a) := .plain ha
  have hdot : byte '.' ∉ a := ha.not_mem (by decide)
  rcases hfa with rfl | ⟨ds, rfl, -⟩
  · simpa using not_angleText_space hdot
  · rw [List.append_assoc, List.cons_append, angleText_of_dot hdot]
    simp only [ne_eq, reduceCtorEq, not_false_eq_true, true_and]
    exact ⟨fun h => h.unique hnum, fun h => h ▸ hnum⟩

theorem fraction_mem {a fa : List UInt8} (ha : Digits a) (hfa : Fraction fa) :
    ∀ b ∈ a ++ fa, isDigit b = true ∨ b = byte '.' := by
  intro b hb
  rcases List.mem_append.mp hb with h | h
  · exact .inl (ha.all b h)
  · rcases hfa with rfl | ⟨ds, rfl, hds⟩
    · simp at h
    · rcases List.mem_cons.mp h with rfl | h
      · exact .inr rfl
      · exact .inl (hds b h)

/-- A digit and a dot are ASCII, and no star and no space. -/
theorem angle_byte {b : UInt8} (h : isDigit b = true ∨ b = byte '.') :
    b < 0x80 ∧ b ≠ byte '*' ∧ b ≠ byte ' ' := by
  rcases h with h | rfl
  · have hd := isDigit_iff.mp h
    refine ⟨UInt8.lt_iff_toNat_lt.mpr (Nat.lt_of_le_of_lt hd.2 (by decide)), ?_, ?_⟩ <;>
      (rintro rfl; revert h; decide)
  · decide

variable {a fa e fe : List UInt8}

theorem combinedFrame_byte (ha : Digits a) (hfa : Fraction fa) (he : Digits e)
    (hfe : Fraction fe) : ∀ b ∈ combinedFrame a fa e fe, b < 0x80 ∧ b ≠ byte '*' := by
  intro b hb
  have hlit : ∀ b ∈ bytes "AZ" ++ bytes "EL" ++ bytes " ", b < 0x80 ∧ b ≠ byte '*' := by
    simp [bytes, byte]
  simp only [combinedFrame, List.mem_append, List.mem_cons] at hb
  simp only [List.mem_append] at hlit
  rcases hb with (h | h) | rfl | h | h
  · exact hlit b (.inl (.inl h))
  · have hb := angle_byte (fraction_mem ha hfa b (by simpa using h))
    exact ⟨hb.1, hb.2.1⟩
  · decide
  · exact hlit b (.inl (.inr h))
  · have hb := angle_byte (fraction_mem he hfe b (by simpa using h))
    exact ⟨hb.1, hb.2.1⟩

/-- The combined rule on the frame, and the single-axis rule. -/
theorem combinedFrame_combined (ha : Digits a) (hfa : Fraction fa) (he : Digits e)
    (hfe : Fraction fe) (az el : UInt16) :
    CombinedText (combinedFrame a fa e fe) az el ↔
      (az.toNat = digitsValue a ∧ el.toNat = digitsValue e) ∧ az ≤ 360 ∧ el ≤ 180 := by
  have hspace : byte ' ' ∉ bytes "AZ" ++ (a ++ fa) := by
    rw [List.mem_append, not_or]
    exact ⟨by decide, fun h => (angle_byte (fraction_mem ha hfa _ h)).2.2 rfl⟩
  simp only [combinedFrame, combinedText_split hspace, List.append_cancel_left_eq,
    exists_eq_left', angleText_fraction ha hfa, angleText_fraction he hfe, and_assoc]

theorem combinedFrame_eq :
    combinedFrame a fa e fe
      = bytes "AZ" ++ (a ++ fa ++ byte ' ' :: (bytes "EL" ++ (e ++ fe))) := by
  rw [combinedFrame, List.append_assoc]

theorem combinedFrame_single (ha : Digits a) (hfa : Fraction fa) (c : Command) :
    SingleAxisText (combinedFrame a fa e fe) c ↔
      ∃ az, c = .azimuth az ∧ (fa ≠ [] ∧ az.toNat = digitsValue a) ∧ az ≤ 360 := by
  simp only [combinedFrame_eq, singleAxisText_az, angleText_rest ha hfa]

/-- Only the axis rules apply to the frame. -/
theorem decodeCommand_axes (ha : Digits a) (hfa : Fraction fa) (he : Digits e)
    (hfe : Fraction fe) (c : Command) :
    decodeCommand (combinedFrame a fa e fe) = .ok (some c) ↔
      (∃ az el, c = .azimuthElevation az el ∧ CombinedText (combinedFrame a fa e fe) az el) ∨
        (∀ az el, ¬ CombinedText (combinedFrame a fa e fe) az el) ∧
          SingleAxisText (combinedFrame a fa e fe) c := by
  have hbyte := @combinedFrame_byte a fa e fe ha hfa he hfe
  have hv := Utf8.valid_of_ascii fun b hb => (hbyte b hb).1
  rw [combinedFrame_eq] at hv hbyte ⊢
  have hstar : byte '*' ∉ a ++ fa ++ byte ' ' :: (bytes "EL" ++ (e ++ fe)) := fun h =>
    (hbyte _ (List.mem_append_right _ h)).2 rfl
  rw [decodeCommand_axis (.inl rfl) hstar (by simp)]
  simp only [(Utf8.valid_append (by decide)).mp hv, true_and]

/-- **What a frame of both axes is decoded to.** The combined rule decides
where both angles are in range. Where it fails, the azimuth rule still
reads the text up to the first dot, if the azimuth has one. -/
theorem decodeCommand_combined (ha : Digits a) (hfa : Fraction fa) (he : Digits e)
    (hfe : Fraction fe) :
    decodeCommand (combinedFrame a fa e fe) = .ok (
      if digitsValue a ≤ 360 ∧ digitsValue e ≤ 180 then
        some (.azimuthElevation (UInt16.ofNat (digitsValue a)) (UInt16.ofNat (digitsValue e)))
      else if fa ≠ [] ∧ digitsValue a ≤ 360 then
        some (.azimuth (UInt16.ofNat (digitsValue a)))
      else none) := by
  have hdec := decodeCommand_axes ha hfa he hfe
  simp only [combinedFrame_combined ha hfa he hfe, combinedFrame_single ha hfa] at hdec
  have hle : ∀ n b : UInt16, n ≤ b ↔ n.toNat ≤ b.toNat := fun n b => UInt16.le_iff_toNat_le
  have h360 : (360 : UInt16).toNat = 360 := rfl
  have h180 : (180 : UInt16).toNat = 180 := rfl
  simp only [hle, h360, h180] at hdec
  by_cases hrange : digitsValue a ≤ 360 ∧ digitsValue e ≤ 180
  · have haz := toNat_ofNat_of_le (b := 360) hrange.1
    have hel := toNat_ofNat_of_le (b := 180) hrange.2
    rw [if_pos hrange]
    exact (hdec _).mpr (.inl ⟨_, _, rfl, ⟨haz, hel⟩, by omega, by omega⟩)
  · have hboth : ∀ az el : UInt16, ¬ ((az.toNat = digitsValue a ∧ el.toNat = digitsValue e) ∧
        az.toNat ≤ 360 ∧ el.toNat ≤ 180) := fun az el h => hrange (by omega)
    rw [if_neg hrange]
    by_cases hone : fa ≠ [] ∧ digitsValue a ≤ 360
    · have haz := toNat_ofNat_of_le (b := 360) hone.2
      rw [if_pos hone]
      exact (hdec _).mpr (.inr ⟨hboth, _, rfl, ⟨hone.1, haz⟩, by omega⟩)
    · rw [if_neg hone, decodeCommand_eq, Except.ok.injEq, Option.eq_none_iff_forall_ne_some]
      intro c hc
      rcases (hdec c).mp (by rw [decodeCommand_eq, hc]) with
        ⟨az, el, -, h⟩ | ⟨-, az, -, ⟨hne, haz⟩, hazle⟩
      · exact hboth az el h
      · exact hone ⟨hne, by omega⟩

/-- **When a combined set is all or nothing.** It is, unless the azimuth
has a fraction and is in range and the elevation is not. -/
theorem combinedSet_allOrNothing_iff (a fa e fe : List UInt8) (ha : Digits a)
    (hfa : Fraction fa) (he : Digits e) (hfe : Fraction fe) :
    decodeCommand (combinedFrame a fa e fe) = .ok (
      if digitsValue a ≤ 360 ∧ digitsValue e ≤ 180 then
        some (.azimuthElevation (UInt16.ofNat (digitsValue a)) (UInt16.ofNat (digitsValue e)))
      else none) ↔
    ¬ (fa ≠ [] ∧ digitsValue a ≤ 360 ∧ 180 < digitsValue e) := by
  rw [decodeCommand_combined ha hfa he hfe, Except.ok.injEq]
  by_cases hrange : digitsValue a ≤ 360 ∧ digitsValue e ≤ 180
  · simp only [if_pos hrange, true_iff]
    omega
  · by_cases hone : fa ≠ [] ∧ digitsValue a ≤ 360
    · simp only [if_neg hrange, if_pos hone, reduceCtorEq, false_iff, not_not]
      exact ⟨hone.1, hone.2, by omega⟩
    · simp only [if_neg hrange, if_neg hone, true_iff]
      exact fun h => hone ⟨h.1, h.2.1⟩

/-- The criterion on `AZ10.0 EL20`. -/
theorem combinedSet_allOrNothing_iff_in_range :
    decodeCommand (combinedFrame (bytes "10") (bytes ".0") (bytes "20") []) = .ok (
      if digitsValue (bytes "10") ≤ 360 ∧ digitsValue (bytes "20") ≤ 180 then
        some (.azimuthElevation (UInt16.ofNat (digitsValue (bytes "10")))
          (UInt16.ofNat (digitsValue (bytes "20"))))
      else none) ↔
    ¬ (bytes ".0" ≠ [] ∧ digitsValue (bytes "10") ≤ 360 ∧ 180 < digitsValue (bytes "20")) :=
  combinedSet_allOrNothing_iff _ _ _ _ (by decide)
    (.inr ⟨bytes "0", rfl, (show Digits (bytes "0") by decide).all⟩) (by decide) (.inl rfl)

/-- `AZ10.0 EL999`: the azimuth is set alone. -/
theorem combinedSet_one_axis :
    Digits (bytes "10") ∧ Fraction (bytes ".0") ∧ Digits (bytes "999") ∧ Fraction [] ∧
    decodeCommand (combinedFrame (bytes "10") (bytes ".0") (bytes "999") [])
      = .ok (some (.azimuth 10)) ∧
    ¬ (digitsValue (bytes "10") ≤ 360 ∧ digitsValue (bytes "999") ≤ 180) :=
  ⟨by decide, .inr ⟨bytes "0", rfl, (show Digits (bytes "0") by decide).all⟩, by decide,
    .inl rfl, by decide, by decide⟩

end Easycom
