import Easycom.CommandDecoding
import Easycom.ResponseChecksum

/-!
# Easycom — PositionDecoding

What `decode` makes of a position with both axes. The position rule reads
three bytes behind each label; where it fails, the single-axis rule reads
the azimuth as far as the first dot and drops the elevation
(`decode_positionFrame`, `position_kept_iff`).
-/

namespace Easycom

open Rust Stream

/-! ## Three bytes of a number -/

/-- Three bytes of digits and of what follows them are a numeral only if
the digits are three at least. -/
theorem numeral_take_three {ds u : List UInt8} {v : Nat} (hds : Digits ds)
    (hu : ∀ b ∈ u.head?, isDigit b = false ∧ b ≠ byte '+') :
    3 ≤ (ds ++ u).length ∧ Numeral ((ds ++ u).take 3) v ↔
      3 ≤ ds.length ∧ v = digitsValue (ds.take 3) := by
  by_cases hlen : 3 ≤ ds.length
  · have hnum : Numeral (ds.take 3) (digitsValue (ds.take 3)) := by
      refine .plain ⟨?_, fun b hb => hds.all b (List.mem_of_mem_take hb)⟩
      exact List.ne_nil_of_length_pos (by rw [List.length_take]; omega)
    rw [List.take_append_of_le_length hlen, List.length_append]
    constructor
    · rintro ⟨-, h⟩
      exact ⟨hlen, h.unique hnum⟩
    · rintro ⟨-, rfl⟩
      exact ⟨by omega, hnum⟩
  · constructor
    · rintro ⟨hroom, h⟩
      cases u with
      | nil => exact absurd (by simpa using hroom) hlen
      | cons b u =>
          -- the byte behind the digits is among the three
          have hb := hu b (by simp)
          have hmem : b ∈ (ds ++ b :: u).take 3 := by
            obtain ⟨k, hk⟩ : ∃ k, 3 - ds.length = k + 1 := ⟨2 - ds.length, by omega⟩
            rw [List.take_append, hk, List.take_succ_cons]
            simp
          exact absurd hmem (not_mem_numeral h hb.1 hb.2)
    · rintro ⟨h, -⟩
      exact absurd h hlen

/-- A label whose first byte occurs once. -/
theorem labelledText_once {c : UInt8} {label xs ys : List UInt8} {v : Nat} (hx : c ∉ xs)
    (hy : c ∉ ys) :
    LabelledText (c :: label) (xs ++ c :: ys) v ↔
      ∃ rest, ys = label ++ rest ∧ 3 ≤ rest.length ∧ Numeral (rest.take 3) v := by
  constructor
  · intro h
    generalize hp : xs ++ c :: ys = p at h
    cases h with
    | @mk pre ds post _ hlen hnum =>
        obtain ⟨-, rfl⟩ := (append_cons_inj_once hx hy).mp hp
        refine ⟨ds ++ post, rfl, by rw [List.length_append]; omega, ?_⟩
        rwa [← hlen, List.take_left]
  · rintro ⟨rest, rfl, hlen, hnum⟩
    have h := @LabelledText.mk (c :: label) xs (rest.take 3) (rest.drop 3) v
      (by rw [List.length_take]; omega) hnum fun j hj => not_prefix_of_head hx hj
    rwa [List.take_append_drop] at h

/-! ## The frame -/

/-- The `=` of a label, or nothing. -/
def equalsSign (q : Bool) : List UInt8 := if q then bytes "=" else []

/-- The frame `AZ[=]<a> EL[=]<e>`, each number with its fraction. -/
def positionFrame (qa : Bool) (a fa : List UInt8) (qe : Bool) (e fe : List UInt8) :
    List UInt8 :=
  bytes "AZ" ++ (equalsSign qa ++ (a ++ fa)) ++
    byte ' ' :: (bytes "EL" ++ (equalsSign qe ++ (e ++ fe)))

/-- Both numbers stand where the position rule looks for them. -/
def Labelled (qa : Bool) (a : List UInt8) (qe : Bool) (e : List UInt8) : Prop :=
  (qa = true ∧ 3 ≤ a.length) ∧ (qe = true ∧ 3 ≤ e.length)

instance (qa : Bool) (a : List UInt8) (qe : Bool) (e : List UInt8) :
    Decidable (Labelled qa a qe e) := inferInstanceAs (Decidable (_ ∧ _))

/-- More than three digits, of another number than zero. -/
def Truncated (ds : List UInt8) : Prop := 3 < ds.length ∧ digitsValue ds ≠ 0

instance (ds : List UInt8) : Decidable (Truncated ds) :=
  inferInstanceAs (Decidable (_ ∧ _))

theorem digit_ne {b c : UInt8} (h : isDigit b = true) (hc : isDigit c = false) : b ≠ c := by
  rintro rfl
  rw [hc] at h
  cases h

/-- Behind its `=`, if it has one, stands the number. -/
theorem equals_split {q : Bool} {ds u rest : List UInt8} (hds : Digits ds) :
    equalsSign q ++ (ds ++ u) = byte '=' :: rest ↔ q = true ∧ rest = ds ++ u := by
  cases q with
  | true =>
      rw [equalsSign, if_pos rfl]
      constructor
      · intro h
        exact ⟨rfl, (List.tail_eq_of_cons_eq h).symm⟩
      · rintro ⟨-, rfl⟩
        rfl
  | false =>
      rw [equalsSign, if_neg (by decide), List.nil_append]
      cases ds with
      | nil => exact absurd rfl hds.ne_nil
      | cons d ds =>
          constructor
          · intro h
            exact absurd (List.head_eq_of_cons_eq h) (digit_ne hds.head (by decide))
          · rintro ⟨h, -⟩
            cases h

/-- An `=` in front is optional, unless it is already there. -/
theorem axisText_equalsSign {q : Bool} {s : List UInt8} {v : Nat} :
    AxisText (equalsSign q ++ s) v ↔
      AngleText s v ∨ q = false ∧ ∃ t, s = byte '=' :: t ∧ AngleText t v := by
  constructor
  · intro h
    generalize hu : equalsSign q ++ s = u at h
    cases h with
    | bare h =>
        subst hu
        cases q with
        | true => exact absurd h equals_not_head
        | false => exact .inl h
    | equals h =>
        cases q with
        | true =>
            obtain rfl := List.tail_eq_of_cons_eq hu
            exact .inl h
        | false => exact .inr ⟨rfl, _, hu, h⟩
  · rintro (h | ⟨rfl, t, rfl, h⟩)
    · cases q with
      | true => exact .equals h
      | false => exact .bare h
    · exact .equals h

theorem axisText_equals {q : Bool} {ds u : List UInt8} {v : Nat} (hds : Digits ds) :
    AxisText (equalsSign q ++ (ds ++ u)) v ↔ AngleText (ds ++ u) v := by
  -- a number does not open with an `=`
  have hno : ∀ t, ds ++ u ≠ byte '=' :: t := by
    intro t ht
    have hq := ((@equals_split false _ _ _ hds).mp ht).1
    cases hq
  simp only [axisText_equalsSign, hno, false_and, exists_false, and_false, or_false]

theorem equalsSign_byte {q : Bool} {b : UInt8} (h : b ∈ equalsSign q) : b = byte '=' := by
  cases q with
  | true => simpa [equalsSign, bytes] using h
  | false => simp [equalsSign] at h

variable {qa qe : Bool} {a fa e fe : List UInt8}

/-- Sign, digits and fraction are ASCII and no letters. -/
theorem axis_byte {q : Bool} {ds f : List UInt8} (hds : Digits ds) (hf : Fraction f) {b : UInt8}
    (h : b ∈ equalsSign q ++ (ds ++ f)) :
    b < 0x80 ∧ isPlain b = true ∧ b ≠ byte 'A' ∧ b ≠ byte 'E' := by
  rcases List.mem_append.mp h with h | h
  · obtain rfl := equalsSign_byte h
    decide
  · rcases fraction_mem hds hf b h with h | rfl
    · exact ⟨(angle_byte (.inl h)).1, isPlain_digit h, digit_ne h (by decide),
        digit_ne h (by decide)⟩
    · decide

theorem positionFrame_byte (ha : Digits a) (hfa : Fraction fa) (he : Digits e)
    (hfe : Fraction fe) :
    ∀ b ∈ positionFrame qa a fa qe e fe, b < 0x80 ∧ isPlain b = true := by
  intro b hb
  have hlit : ∀ b ∈ bytes "AZ" ++ bytes " EL", b < 0x80 ∧ isPlain b = true := by
    simp [bytes, byte, isPlain, isTerminator]
  simp only [positionFrame, List.mem_append, List.mem_cons] at hb hlit
  rcases hb with (h | h) | rfl | h | h
  · exact hlit b (.inl h)
  · have hbyte := axis_byte ha hfa (List.mem_append.mpr (by simpa using h))
    exact ⟨hbyte.1, hbyte.2.1⟩
  · decide
  · exact hlit b (.inr (.tail _ h))
  · have hbyte := axis_byte he hfe (List.mem_append.mpr (by simpa using h))
    exact ⟨hbyte.1, hbyte.2.1⟩

/-! ## The position rule -/

/-- The number behind a label whose first letter occurs once. -/
theorem labelledText_number {q : Bool} {c d : UInt8} {xs ds u : List UInt8} {v : Nat}
    (hx : c ∉ xs) (hy : c ∉ d :: (equalsSign q ++ (ds ++ u))) (hds : Digits ds)
    (hu : ∀ b ∈ u.head?, isDigit b = false ∧ b ≠ byte '+') :
    LabelledText [c, d, byte '='] (xs ++ c :: d :: (equalsSign q ++ (ds ++ u))) v ↔
      (q = true ∧ 3 ≤ ds.length) ∧ v = digitsValue (ds.take 3) := by
  rw [labelledText_once hx hy, and_assoc, ← numeral_take_three hds hu]
  constructor
  · rintro ⟨rest, hrest, hlen, hnum⟩
    obtain ⟨hq, rfl⟩ := (equals_split hds).mp (List.tail_eq_of_cons_eq hrest)
    exact ⟨hq, hlen, hnum⟩
  · rintro ⟨hq, hlen, hnum⟩
    refine ⟨ds ++ u, ?_, hlen, hnum⟩
    rw [(equals_split hds).mpr ⟨hq, rfl⟩]
    rfl

theorem fraction_head {f t : List UInt8} (hf : Fraction f)
    (ht : ∀ b ∈ t.head?, isDigit b = false ∧ b ≠ byte '+') :
    ∀ b ∈ (f ++ t).head?, isDigit b = false ∧ b ≠ byte '+' := by
  rcases hf with rfl | ⟨ds, rfl, -⟩
  · exact ht
  · intro b hb
    obtain rfl : byte '.' = b := Option.some.inj hb
    decide

/-- The azimuth as the position rule finds it, -/
theorem labelledText_az (ha : Digits a) (hfa : Fraction fa) (he : Digits e)
    (hfe : Fraction fe) (v : Nat) :
    LabelledText (bytes "AZ=") (positionFrame qa a fa qe e fe) v ↔
      (qa = true ∧ 3 ≤ a.length) ∧ v = digitsValue (a.take 3) := by
  have hframe : positionFrame qa a fa qe e fe = [] ++ byte 'A' :: byte 'Z' ::
      (equalsSign qa ++ (a ++ (fa ++ byte ' ' ::
        (bytes "EL" ++ (equalsSign qe ++ (e ++ fe)))))) := by
    simp [positionFrame, bytes, byte]
  have hA : byte 'A' ∉ equalsSign qa ++ (a ++ fa) := fun h => (axis_byte ha hfa h).2.2.1 rfl
  have hA' : byte 'A' ∉ equalsSign qe ++ (e ++ fe) := fun h => (axis_byte he hfe h).2.2.1 rfl
  have hlabel : byte 'A' ∉ [byte 'Z'] ++ (equalsSign qa ++ (a ++ fa)) ++
      (bytes " EL" ++ (equalsSign qe ++ (e ++ fe))) := by
    simp only [List.mem_append, not_or] at hA hA' ⊢
    exact ⟨⟨by decide, hA⟩, by decide, hA'⟩
  rw [hframe]
  show LabelledText [byte 'A', byte 'Z', byte '='] _ v ↔ _
  refine labelledText_number (by simp) ?_ ha (fraction_head hfa ?_)
  · simpa [bytes, byte] using hlabel
  · intro b hb
    obtain rfl : byte ' ' = b := Option.some.inj hb
    decide

/-- and the elevation. -/
theorem labelledText_el (ha : Digits a) (hfa : Fraction fa) (he : Digits e)
    (hfe : Fraction fe) (v : Nat) :
    LabelledText (bytes "EL=") (positionFrame qa a fa qe e fe) v ↔
      (qe = true ∧ 3 ≤ e.length) ∧ v = digitsValue (e.take 3) := by
  have hframe : positionFrame qa a fa qe e fe
      = (bytes "AZ" ++ (equalsSign qa ++ (a ++ fa)) ++ bytes " ") ++ byte 'E' :: byte 'L' ::
        (equalsSign qe ++ (e ++ fe)) := by
    simp [positionFrame, bytes, byte]
  have hE : byte 'E' ∉ equalsSign qa ++ (a ++ fa) := fun h => (axis_byte ha hfa h).2.2.2 rfl
  have hE' : byte 'E' ∉ equalsSign qe ++ (e ++ fe) := fun h => (axis_byte he hfe h).2.2.2 rfl
  have hhead : ∀ b ∈ (fe ++ []).head?, isDigit b = false ∧ b ≠ byte '+' :=
    fraction_head hfe (by simp)
  rw [hframe]
  show LabelledText [byte 'E', byte 'L', byte '='] _ v ↔ _
  refine labelledText_number ?_ ?_ he (by simpa using hhead)
  · rw [List.mem_append, List.mem_append, not_or, not_or]
    exact ⟨⟨by decide, hE⟩, by decide⟩
  · rw [List.mem_cons, not_or]
    exact ⟨by decide, hE'⟩

/-- Three digits fit. -/
theorem toNat_take_three {ds : List UInt8} (hds : Digits ds) :
    (UInt16.ofNat (digitsValue (ds.take 3))).toNat = digitsValue (ds.take 3) := by
  have hlt := @digitsValue_lt (ds.take 3) fun b hb => hds.all b (List.mem_of_mem_take hb)
  have hle : 10 ^ (ds.take 3).length ≤ 10 ^ 3 :=
    Nat.pow_le_pow_right (by decide) (List.length_take_le _ _)
  exact UInt16.toNat_ofNat_of_lt' (show digitsValue (ds.take 3) < 2 ^ 16 by omega)

theorem positionFrame_length (ha : 3 ≤ a.length) (he : 3 ≤ e.length) :
    13 ≤ (positionFrame true a fa true e fe).length := by
  simp [positionFrame, equalsSign, bytes]
  omega

theorem positionText_positionFrame (ha : Digits a) (hfa : Fraction fa) (he : Digits e)
    (hfe : Fraction fe) (az el : UInt16) :
    PositionText (positionFrame qa a fa qe e fe) az el ↔
      Labelled qa a qe e ∧
        az.toNat = digitsValue (a.take 3) ∧ el.toNat = digitsValue (e.take 3) := by
  constructor
  · intro h
    obtain ⟨haz, hav⟩ := (labelledText_az ha hfa he hfe _).mp h.az
    obtain ⟨hel, hev⟩ := (labelledText_el ha hfa he hfe _).mp h.el
    exact ⟨⟨haz, hel⟩, hav, hev⟩
  · rintro ⟨⟨haz, hel⟩, hav, hev⟩
    refine ⟨?_, Utf8.valid_of_ascii fun b hb => (positionFrame_byte ha hfa he hfe b hb).1,
      (labelledText_az ha hfa he hfe _).mpr ⟨haz, hav⟩,
      (labelledText_el ha hfa he hfe _).mpr ⟨hel, hev⟩⟩
    rw [haz.1, hel.1]
    exact positionFrame_length haz.2 hel.2

/-! ## The single-axis rule -/

/-- What the frame spells: a position by the position rule, and where that
fails the azimuth up to the first dot. -/
theorem responseText_positionFrame (ha : Digits a) (hfa : Fraction fa) (he : Digits e)
    (hfe : Fraction fe) (r : Response) :
    ResponseText (positionFrame qa a fa qe e fe) r ↔
      (Labelled qa a qe e ∧ ∃ az el, r = .position az el ∧
        az.toNat = digitsValue (a.take 3) ∧ el.toNat = digitsValue (e.take 3)) ∨
      (¬ Labelled qa a qe e ∧ fa ≠ [] ∧
        ∃ az, r = .azimuthPosition az ∧ az.toNat = digitsValue a) := by
  have haxis : ∀ v, AxisText (equalsSign qa ++ (a ++ (fa ++ byte ' ' ::
      (bytes "EL" ++ (equalsSign qe ++ (e ++ fe)))))) v ↔ fa ≠ [] ∧ v = digitsValue a := by
    intro v
    rw [axisText_equals ha, ← List.append_assoc, angleText_rest ha hfa]
  have hframe : positionFrame qa a fa qe e fe = bytes "AZ" ++ (equalsSign qa ++ (a ++
      (fa ++ byte ' ' :: (bytes "EL" ++ (equalsSign qe ++ (e ++ fe)))))) := by
    simp [positionFrame]
  have hpos := @positionText_positionFrame qa qe a fa e fe ha hfa he hfe
  have hno : ¬ Labelled qa a qe e →
      ∀ az el, ¬ PositionText (positionFrame qa a fa qe e fe) az el :=
    fun hlab az el h => hlab ((hpos az el).mp h).1
  constructor
  · intro h
    by_cases hlab : Labelled qa a qe e
    · have haz := toNat_take_three ha
      have hel := toNat_take_three he
      exact .inl ⟨hlab, _, _, h.unique (.position ((hpos _ _).mpr ⟨hlab, haz, hel⟩)), haz, hel⟩
    · refine .inr ⟨hlab, ?_⟩
      rcases h.cases_label (hno hlab) with hshort | ⟨s, hs, az, rfl, haz⟩ | hother
      · rcases hshort with hp | hp | hp <;> simp [hframe, bytes, byte] at hp
      · rw [hframe, List.append_cancel_left_eq] at hs
        rw [← hs, haxis] at haz
        exact ⟨haz.1, az, rfl, haz.2⟩
      · rcases hother with ⟨s, hp, -⟩ | ⟨st, hp, -⟩ | ⟨s, hp, -⟩ | ⟨s, hp, -⟩ | ⟨s, hp, -⟩ <;>
          simp [hframe, bytes, byte] at hp
  · rintro (⟨hlab, az, el, rfl, hval⟩ | ⟨hlab, hne, az, rfl, hval⟩)
    · exact .position ((hpos az el).mpr ⟨hlab, hval⟩)
    · have hv := Utf8.valid_of_ascii fun b hb =>
        (@positionFrame_byte qa qe a fa e fe ha hfa he hfe b hb).1
      have hno := hno hlab
      rw [hframe] at hv hno ⊢
      exact .azimuth ((Utf8.valid_append (by decide)).mp hv) ((haxis _).mpr ⟨hne, hval⟩) hno

/-- **What a position with both axes is decoded to.** With the two `=` and
three digits behind each, it is the position of the first three digits of
each. Without, it is the azimuth alone if the azimuth has a fraction. -/
theorem decode_positionFrame (ha : Digits a) (hfa : Fraction fa) (he : Digits e)
    (hfe : Fraction fe) :
    decode (positionFrame qa a fa qe e fe ++ [byte '\r']) = .ok (
      if Labelled qa a qe e then
        .ok (.position (UInt16.ofNat (digitsValue (a.take 3)))
          (UInt16.ofNat (digitsValue (e.take 3))))
      else if fa ≠ [] ∧ digitsValue a ≤ 65535 then
        .ok (.azimuthPosition (UInt16.ofNat (digitsValue a)))
      else .error .unknownCommand) := by
  have hplain : Plain (positionFrame qa a fa qe e fe) :=
    fun b hb => (positionFrame_byte ha hfa he hfe b hb).2
  have htext := @responseText_positionFrame qa qe a fa e fe ha hfa he hfe
  rw [decode_plain_line hplain (by decide)]
  by_cases hlab : Labelled qa a qe e
  · rw [if_pos hlab]
    exact decodePayload_complete ((htext _).mpr
      (.inl ⟨hlab, _, _, rfl, toNat_take_three ha, toNat_take_three he⟩))
  · rw [if_neg hlab]
    by_cases hone : fa ≠ [] ∧ digitsValue a ≤ 65535
    · have haz := toNat_ofNat_of_le (b := 65535) hone.2
      rw [if_pos hone]
      exact decodePayload_complete ((htext _).mpr (.inr ⟨hlab, hone.1, _, rfl, haz⟩))
    · rw [if_neg hone]
      refine decodePayload_unknown fun resp hresp => ?_
      rcases (htext resp).mp hresp with h | ⟨-, hne, az, -, haz⟩
      · exact hlab h.1
      · have hlt := az.toNat_lt
        exact hone ⟨hne, by omega⟩

/-- The frame is decoded to the position or to an error. -/
def KeepsAxes (frame : List UInt8) (az el : Nat) : Prop :=
  (∃ err, decode frame = .ok (.error err)) ∨
  ∃ x y : UInt16, decode frame = .ok (.ok (.position x y)) ∧ x.toNat = az ∧ y.toNat = el

theorem take_three_eq_iff {ds : List UInt8} (hlen : 3 ≤ ds.length) :
    digitsValue (ds.take 3) = digitsValue ds ↔ ¬ Truncated ds := by
  rw [Truncated, not_and, not_not]
  rcases Nat.eq_or_lt_of_le hlen with h | h
  · rw [List.take_of_length_le (by omega)]
    simp [← h]
  · simp [digitsValue_take_eq_iff h, h]

/-- **When both axes survive.** Where the position rule applies, if neither
number is truncated by it; elsewhere, if the azimuth has no fraction or is
too large for the single-axis rule. -/
theorem position_kept_iff (qa qe : Bool) (a fa e fe : List UInt8) (ha : Digits a)
    (hfa : Fraction fa) (he : Digits e) (hfe : Fraction fe) :
    KeepsAxes (positionFrame qa a fa qe e fe ++ [byte '\r']) (digitsValue a) (digitsValue e) ↔
      (Labelled qa a qe e → ¬ Truncated a ∧ ¬ Truncated e) ∧
      (¬ Labelled qa a qe e → fa = [] ∨ 65535 < digitsValue a) := by
  rw [KeepsAxes, decode_positionFrame ha hfa he hfe]
  by_cases hlab : Labelled qa a qe e
  · rw [← take_three_eq_iff hlab.1.2, ← take_three_eq_iff hlab.2.2]
    simp [hlab, toNat_take_three ha, toNat_take_three he]
  · by_cases hone : fa ≠ [] ∧ digitsValue a ≤ 65535
    · simp [hlab, hone]
    · rw [if_neg hlab, if_neg hone]
      constructor
      · intro _
        refine ⟨fun h => absurd h hlab, fun _ => ?_⟩
        rcases not_and_or.mp hone with h | h
        · exact .inl (not_not.mp h)
        · exact .inr (by omega)
      · exact fun _ => .inl ⟨_, rfl⟩

/-- The criterion on `AZ=090 EL=045`. -/
theorem position_kept_iff_three :
    KeepsAxes (positionFrame true (bytes "090") [] true (bytes "045") [] ++ [byte '\r'])
        (digitsValue (bytes "090")) (digitsValue (bytes "045")) ↔
      (Labelled true (bytes "090") true (bytes "045") →
        ¬ Truncated (bytes "090") ∧ ¬ Truncated (bytes "045")) ∧
      (¬ Labelled true (bytes "090") true (bytes "045") →
        ([] : List UInt8) = [] ∨ 65535 < digitsValue (bytes "090")) :=
  position_kept_iff _ _ _ _ _ _ (by decide) (.inl rfl) (by decide) (.inl rfl)

/-- `AZ=10.0 EL=20` is the azimuth alone, and `AZ=1234 EL=045` the position
of 123 and 45. -/
theorem position_not_kept :
    (Digits (bytes "10") ∧ Fraction (bytes ".0") ∧ Digits (bytes "20") ∧
      decode (positionFrame true (bytes "10") (bytes ".0") true (bytes "20") [] ++ [byte '\r'])
        = .ok (.ok (.azimuthPosition 10)) ∧
      ¬ KeepsAxes (positionFrame true (bytes "10") (bytes ".0") true (bytes "20") [] ++
        [byte '\r']) (digitsValue (bytes "10")) (digitsValue (bytes "20"))) ∧
    (Digits (bytes "1234") ∧ Digits (bytes "045") ∧ Fraction [] ∧
      decode (positionFrame true (bytes "1234") [] true (bytes "045") [] ++ [byte '\r'])
        = .ok (.ok (.position 123 45)) ∧
      ¬ KeepsAxes (positionFrame true (bytes "1234") [] true (bytes "045") [] ++
        [byte '\r']) (digitsValue (bytes "1234")) (digitsValue (bytes "045"))) := by
  have hone : decode (positionFrame true (bytes "10") (bytes ".0") true (bytes "20") [] ++
      [byte '\r']) = .ok (.ok (.azimuthPosition 10)) := by decide
  have hcut : decode (positionFrame true (bytes "1234") [] true (bytes "045") [] ++
      [byte '\r']) = .ok (.ok (.position 123 45)) := by decide
  refine ⟨⟨by decide, .inr ⟨bytes "0", rfl, (show Digits (bytes "0") by decide).all⟩,
    by decide, hone, ?_⟩, by decide, by decide, .inl rfl, hcut, ?_⟩
  · rintro (⟨err, h⟩ | ⟨x, y, h, -⟩)
    · rw [hone] at h
      cases h
    · rw [hone] at h
      cases h
  · rintro (⟨err, h⟩ | ⟨x, y, h, haz, -⟩)
    · rw [hcut] at h
      cases h
    · rw [hcut] at h
      cases h
      revert haz
      decide

end Easycom
