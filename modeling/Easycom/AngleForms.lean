import Easycom.PositionDecoding

/-!
# Easycom — AngleForms

The places where the decoders read one angle behind `AZ` or `EL`. On a
well-formed decimal number the Easycomm forms of the position commands and
the three-digit GS-232 forms are one language
(`positions_interchangeable`). The number helper they share is more
lenient than the format: `angles_decimal_iff` says which other texts pass
for an angle.
-/

namespace Easycom

open Rust Stream

/-! ## Decimal numbers -/

variable {a fa e fe : List UInt8}

/-- **A decimal number behind a label** is the command of its value, where
that is in range. -/
theorem decodeCommand_number {k : String} {f : UInt16 → Command} {bound : UInt16}
    (hk : k = "AZ" ∨ k = "EL")
    (hsingle : ∀ u c, SingleAxisText (bytes k ++ u) c ↔
      ∃ n, c = f n ∧ AngleText u n.toNat ∧ n ≤ bound)
    (ha : Digits a) (hfa : Fraction fa) :
    decodeCommand (bytes k ++ (a ++ fa)) = .ok (
      if digitsValue a ≤ bound.toNat then some (f (UInt16.ofNat (digitsValue a)))
      else none) := by
  have hbyte := fun b hb => angle_byte (fraction_mem ha hfa b hb)
  have hno : ∀ az el, ¬ CombinedText (bytes k ++ (a ++ fa)) az el := by
    intro az el h
    rcases List.mem_append.mp h.space_mem with hmem | hmem
    · rcases hk with rfl | rfl <;> simp [bytes, byte] at hmem
    · exact (hbyte _ hmem).2.2 rfl
  have hdec := decodeCommand_axis hk (fun h => (hbyte _ h).2.1 rfl)
    (List.append_ne_nil_of_left_ne_nil ha.ne_nil fa)
  simp only [hsingle, angleText_fraction ha hfa, hno, and_false, exists_false, false_or,
    not_false_eq_true, implies_true, true_and,
    Utf8.valid_of_ascii fun b hb => (hbyte b hb).1] at hdec
  rw [decodeCommand_eq] at hdec ⊢
  simp only [Except.ok.injEq] at hdec
  rw [eq_ranged hdec]

/-- A frame of the encoder, read back. -/
theorem decodeCommand_payload {c : Command} (hc : c.Accepted) (ho : c.OffsetsFit) :
    decodeCommand c.payload = .ok (some c.received) := by
  rw [decodeCommand_eq, readCommand_payload hc ho]

/-- **The position commands of Easycomm II and of GS-232 are
interchangeable.** A decimal number behind `AZ` or `EL`, with any leading
zeros and any fraction, sets the axis to its value exactly if that is in
range; so do the three digits of the value behind `A` or `E`, and both
axes behind each other those of `W`. -/
theorem positions_interchangeable (a fa e fe : List UInt8) (ha : Digits a) (hfa : Fraction fa)
    (he : Digits e) (hfe : Fraction fe) :
    decodeCommand (bytes "AZ" ++ (a ++ fa)) = .ok (
      if digitsValue a ≤ 360 then some (.azimuth (UInt16.ofNat (digitsValue a))) else none) ∧
    decodeCommand (bytes "EL" ++ (e ++ fe)) = .ok (
      if digitsValue e ≤ 180 then some (.elevation (UInt16.ofNat (digitsValue e))) else none) ∧
    (digitsValue a ≤ 360 →
      decodeCommand (bytes "A" ++ digits3 (digitsValue a))
        = decodeCommand (bytes "AZ" ++ (a ++ fa))) ∧
    (digitsValue e ≤ 180 →
      decodeCommand (bytes "E" ++ digits3 (digitsValue e))
        = decodeCommand (bytes "EL" ++ (e ++ fe))) ∧
    (digitsValue a ≤ 360 → digitsValue e ≤ 180 →
      decodeCommand (combinedFrame a fa e fe)
        = .ok (some (.azimuthElevation (UInt16.ofNat (digitsValue a))
            (UInt16.ofNat (digitsValue e)))) ∧
      decodeCommand (bytes "W" ++ digits3 (digitsValue a) ++ bytes " " ++
          digits3 (digitsValue e))
        = decodeCommand (combinedFrame a fa e fe)) := by
  have haz := decodeCommand_number (.inl rfl) (fun _ _ => singleAxisText_az) ha hfa
  have hel := decodeCommand_number (.inr rfl) (fun _ _ => singleAxisText_el) he hfe
  refine ⟨haz, hel, fun hva => ?_, fun hve => ?_, fun hva hve => ?_⟩
  · have hgs := @decodeCommand_payload (.azimuth (UInt16.ofNat (digitsValue a)))
      (ofNat_le hva) trivial
    rw [Command.payload, toNat_ofNat_of_le (b := 360) hva] at hgs
    rw [hgs, haz]
    exact congrArg Except.ok (if_pos hva).symm
  · have hgs := @decodeCommand_payload (.elevation (UInt16.ofNat (digitsValue e)))
      (ofNat_le hve) trivial
    rw [Command.payload, toNat_ofNat_of_le (b := 180) hve] at hgs
    rw [hgs, hel]
    exact congrArg Except.ok (if_pos hve).symm
  · have hboth := decodeCommand_combined ha hfa he hfe
    rw [if_pos ⟨hva, hve⟩] at hboth
    have hgs := @decodeCommand_payload (.azimuthElevation (UInt16.ofNat (digitsValue a))
      (UInt16.ofNat (digitsValue e))) ⟨ofNat_le hva, ofNat_le hve⟩ trivial
    rw [Command.payload, toNat_ofNat_of_le (b := 360) hva,
      toNat_ofNat_of_le (b := 180) hve] at hgs
    exact ⟨hboth, hgs.trans hboth.symm⟩

/-- Leading zeros and a fraction. -/
theorem positions_interchangeable_zeros :
    decodeCommand (bytes "AZ" ++ (bytes "00045" ++ bytes ".9")) = .ok (
      if digitsValue (bytes "00045") ≤ 360 then
        some (.azimuth (UInt16.ofNat (digitsValue (bytes "00045")))) else none) ∧
    decodeCommand (bytes "A" ++ digits3 (digitsValue (bytes "00045")))
      = decodeCommand (bytes "AZ" ++ (bytes "00045" ++ bytes ".9")) := by
  have h := positions_interchangeable (bytes "00045") (bytes ".9") (bytes "180") [] (by decide)
    (.inr ⟨bytes "9", rfl, (show Digits (bytes "9") by decide).all⟩) (by decide) (.inl rfl)
  exact ⟨h.1, h.2.2.1 (by decide)⟩

/-! ## Texts that pass for an angle -/

/-- A decimal number and its whole part: digits, possibly with a fraction. -/
inductive DecimalAngle : List UInt8 → Nat → Prop where
  | mk {a f : List UInt8} (ha : Digits a) (hf : Fraction f) : DecimalAngle (a ++ f) (digitsValue a)

/-- The places where one angle is read: the sets of an axis among the
commands, and among the responses the positions of an axis, with and
without their `=`. -/
inductive AngleForm where
  | setAzimuth
  | setElevation
  | azimuth (equals : Bool)
  | elevation (equals : Bool)

/-- What stands before the angle. -/
def AngleForm.front : AngleForm → List UInt8
  | .setAzimuth => bytes "AZ"
  | .setElevation => bytes "EL"
  | .azimuth q => bytes "AZ" ++ equalsSign q
  | .elevation q => bytes "EL" ++ equalsSign q

/-- The largest angle that is read. -/
def AngleForm.max : AngleForm → Nat
  | .setAzimuth => 360
  | .setElevation => 180
  | .azimuth _ | .elevation _ => 65535

theorem AngleForm.max_le (form : AngleForm) : form.max ≤ (65535 : UInt16).toNat := by
  cases form <;> simp [max]

/-- The frame of `s` is decoded to one axis at `n` degrees. -/
def AngleForm.Reads (form : AngleForm) (s : List UInt8) (n : UInt16) : Prop :=
  match form with
  | .setAzimuth | .setElevation =>
      decodeCommand (form.front ++ s) = .ok (some (.azimuth n)) ∨
      decodeCommand (form.front ++ s) = .ok (some (.elevation n))
  | .azimuth _ | .elevation _ =>
      decode (form.front ++ s ++ [byte '\r']) = .ok (.ok (.azimuthPosition n)) ∨
      decode (form.front ++ s ++ [byte '\r']) = .ok (.ok (.elevationPosition n))

/-- The frame of `s` is read by the rule for both axes, which comes first. -/
def AngleForm.Shadowed (form : AngleForm) (s : List UInt8) : Prop :=
  match form with
  | .setAzimuth | .setElevation => ∃ az el, CombinedText (form.front ++ s) az el
  | .azimuth _ | .elevation _ => ∃ az el, PositionText (form.front ++ s) az el

/-- A position without its `=`, which may then open the angle. -/
def AngleForm.Optional (form : AngleForm) : Prop :=
  form = .azimuth false ∨ form = .elevation false

/-- The texts that are no decimal number and pass for an angle: with a plus
sign, with anything but digits behind the dot, or with the `=` that the
form leaves out. -/
inductive LooseAngle (form : AngleForm) : List UInt8 → Nat → Prop where
  | plus {ds f : List UInt8} (hds : Digits ds) (hf : f = [] ∨ ∃ frac, f = byte '.' :: frac) :
      LooseAngle form (byte '+' :: ds ++ f) (digitsValue ds)
  | fraction {ds frac : List UInt8} (hds : Digits ds) (hfrac : ∃ b ∈ frac, isDigit b = false) :
      LooseAngle form (ds ++ byte '.' :: frac) (digitsValue ds)
  | equals {t : List UInt8} {v : Nat} (hform : form.Optional) (h : AngleText t v) :
      LooseAngle form (byte '=' :: t) v

variable {form : AngleForm} {s : List UInt8} {v : Nat}

theorem AngleText.decimal_or_loose (form : AngleForm) (h : AngleText s v) :
    DecimalAngle s v ∨ LooseAngle form s v := by
  cases h with
  | whole h =>
      cases h with
      | plain h =>
          have hd := DecimalAngle.mk h (.inl rfl)
          rw [List.append_nil] at hd
          exact .inl hd
      | plus h =>
          have hl : LooseAngle form _ _ := .plus h (.inl rfl)
          rw [List.append_nil] at hl
          exact .inr hl
  | fraction h frac =>
      cases h with
      | plain h =>
          by_cases hfrac : ∀ b ∈ frac, isDigit b = true
          · exact .inl (.mk h (.inr ⟨frac, rfl, hfrac⟩))
          · exact .inr (.fraction h (by simpa using hfrac))
      | plus h => exact .inr (.plus h (.inr ⟨frac, rfl⟩))

theorem DecimalAngle.angle (h : DecimalAngle s v) : AngleText s v := by
  cases h with
  | mk ha hf => exact (angleText_fraction ha hf).mpr rfl

theorem LooseAngle.angle (h : LooseAngle form s v) :
    AngleText s v ∨ form.Optional ∧ ∃ t, s = byte '=' :: t ∧ AngleText t v := by
  cases h with
  | plus hds hf =>
      rcases hf with rfl | ⟨frac, rfl⟩
      · rw [List.append_nil]
        exact .inl (.whole (.plus hds))
      · exact .inl (.fraction (.plus hds) frac)
  | fraction hds => exact .inl (.fraction (.plain hds) _)
  | equals hform h => exact .inr ⟨hform, _, rfl, h⟩

/-- What is read at a form: an angle, possibly behind an `=` of its own. -/
theorem decimal_or_loose_iff :
    DecimalAngle s v ∨ LooseAngle form s v ↔
      AngleText s v ∨ form.Optional ∧ ∃ t, s = byte '=' :: t ∧ AngleText t v := by
  constructor
  · intro h
    rcases h with h | h
    · exact .inl h.angle
    · exact h.angle
  · intro h
    rcases h with h | ⟨hform, t, rfl, h⟩
    · exact h.decimal_or_loose form
    · exact .inr (.equals hform h)

/-- **No text is both.** -/
theorem LooseAngle.not_decimal {w : Nat} (h : LooseAngle form s v) : ¬ DecimalAngle s w := by
  intro hd
  generalize hu : s = u at hd
  cases hd with
  | @mk a f ha hf =>
      -- the first byte of a decimal number is a digit
      have hhead : ∀ {b : UInt8} {t : List UInt8}, b :: t = a ++ f → isDigit b = true := by
        intro b t hbt
        obtain ⟨d, ds, rfl⟩ := List.exists_cons_of_ne_nil ha.ne_nil
        rw [List.head_eq_of_cons_eq hbt]
        exact ha.head
      cases h with
      | plus => exact absurd (hhead hu) (by decide)
      | equals => exact absurd (hhead hu) (by decide)
      | @fraction ds frac hds hfrac =>
          obtain ⟨b, hb, hdigit⟩ := hfrac
          have hdot : byte '.' ∉ a := ha.not_mem (by decide)
          rcases hf with rfl | ⟨ds', rfl, hds'⟩
          · rw [List.append_nil] at hu
            exact hdot (by simp [← hu])
          · obtain ⟨-, rfl⟩ := (append_cons_inj (hds.not_mem (by decide)) hdot).mp hu
            rw [hds' b hb] at hdigit
            cases hdigit

/-! ## What the forms read -/

theorem decodeCommand_single {k : String} {c : Command} (hk : k = "AZ" ∨ k = "EL")
    (hs : byte '*' ∉ s) (hc : (∃ n, c = .azimuth n) ∨ ∃ n, c = .elevation n) :
    decodeCommand (bytes k ++ s) = .ok (some c) ↔ Utf8.Valid s ∧
      (∀ az el, ¬ CombinedText (bytes k ++ s) az el) ∧ SingleAxisText (bytes k ++ s) c := by
  have hboth : ∀ az el, c ≠ .azimuthElevation az el := by
    rcases hc with ⟨n, rfl⟩ | ⟨n, rfl⟩ <;> simp
  by_cases hne : s = []
  · -- the label alone is a query
    subst hne
    have hang : ∀ v, ¬ AngleText [] v := by
      intro v h
      exact h.ne_nil rfl
    rcases hk with rfl | rfl
    · rw [show decodeCommand (bytes "AZ" ++ []) = .ok (some .queryAzimuth) by decide,
        singleAxisText_az]
      rcases hc with ⟨n, rfl⟩ | ⟨n, rfl⟩ <;> simp [hang]
    · rw [show decodeCommand (bytes "EL" ++ []) = .ok (some .queryElevation) by decide,
        singleAxisText_el]
      rcases hc with ⟨n, rfl⟩ | ⟨n, rfl⟩ <;> simp [hang]
  · rw [decodeCommand_axis hk hs hne]
    simp only [hboth, false_and, exists_false, false_or]

/-- A single-axis position. -/
theorem responseText_azimuth {p : List UInt8} {n : UInt16} :
    ResponseText p (.azimuthPosition n) ↔ ∃ t, p = bytes "AZ" ++ t ∧ Utf8.Valid t ∧
      AxisText t n.toNat ∧ ∀ az el, ¬ PositionText p az el := by
  constructor
  · intro h
    cases h with
    | azimuth hv h hone => exact ⟨_, rfl, hv, h, hone⟩
  · intro h
    obtain ⟨t, rfl, hv, h, hone⟩ := h
    exact .azimuth hv h hone

theorem responseText_elevation {p : List UInt8} {n : UInt16} :
    ResponseText p (.elevationPosition n) ↔ ∃ t, p = bytes "EL" ++ t ∧ Utf8.Valid t ∧
      AxisText t n.toNat ∧ ∀ az el, ¬ PositionText p az el := by
  constructor
  · intro h
    cases h with
    | elevation hv h hone => exact ⟨_, rfl, hv, h, hone⟩
  · intro h
    obtain ⟨t, rfl, hv, h, hone⟩ := h
    exact .elevation hv h hone

theorem equalsSign_valid (q : Bool) : Utf8.Valid (equalsSign q) := by cases q <;> decide

theorem equalsSign_plain (q : Bool) : Plain (equalsSign q) := by cases q <;> decide

theorem AngleForm.front_plain (form : AngleForm) : Plain form.front := by
  cases form <;> simp only [front, plain_append, equalsSign_plain, and_true] <;> decide

theorem decode_plain_eq_ok {p : List UInt8} {r : Response} (hp : Plain p) :
    decode (p ++ [byte '\r']) = .ok (.ok r) ↔ ResponseText p r := by
  rw [decode_plain_line hp (by decide), decodePayload_eq_ok]

/-- **What a form reads**: a valid text that is a decimal number or passes
for one, in range, where the rule for both axes does not apply. -/
theorem AngleForm.reads_iff (hs : Plain s) (n : UInt16) :
    form.Reads s n ↔ Utf8.Valid s ∧ ¬ form.Shadowed s ∧
      (DecimalAngle s n.toNat ∨ LooseAngle form s n.toNat) ∧ n.toNat ≤ form.max := by
  have hstar := hs.star_not_mem
  have hmax : n.toNat ≤ 65535 := by
    have hlt := n.toNat_lt
    omega
  rw [decimal_or_loose_iff]
  cases form with
  | setAzimuth =>
      simp only [Reads, front, decodeCommand_single (.inl rfl) hstar (.inl ⟨_, rfl⟩),
        decodeCommand_single (.inl rfl) hstar (.inr ⟨_, rfl⟩), singleAxisText_az,
        Shadowed, Optional, max]
      simp [UInt16.le_iff_toNat_le]
  | setElevation =>
      simp only [Reads, front, decodeCommand_single (.inr rfl) hstar (.inl ⟨_, rfl⟩),
        decodeCommand_single (.inr rfl) hstar (.inr ⟨_, rfl⟩), singleAxisText_el,
        Shadowed, Optional, max]
      simp [UInt16.le_iff_toNat_le]
  | azimuth q =>
      have hplain := plain_append.mpr ⟨(AngleForm.azimuth q).front_plain, hs⟩
      have hEL : ∀ t, bytes "AZ" ++ (equalsSign q ++ s) ≠ bytes "EL" ++ t := by
        simp [bytes, byte]
      simp only [Reads, decode_plain_eq_ok hplain, responseText_azimuth, responseText_elevation]
      simp only [front, Shadowed, List.append_assoc, hEL, List.append_cancel_left_eq,
        exists_eq_left', false_and, exists_false, or_false,
        Utf8.valid_append (equalsSign_valid q), axisText_equalsSign, Optional, azimuth.injEq,
        reduceCtorEq, not_exists, max, hmax, and_true]
      exact and_congr_right fun _ => and_comm
  | elevation q =>
      have hplain := plain_append.mpr ⟨(AngleForm.elevation q).front_plain, hs⟩
      have hAZ : ∀ t, bytes "EL" ++ (equalsSign q ++ s) ≠ bytes "AZ" ++ t := by
        simp [bytes, byte]
      simp only [Reads, decode_plain_eq_ok hplain, responseText_azimuth, responseText_elevation]
      simp only [front, Shadowed, List.append_assoc, hAZ, List.append_cancel_left_eq,
        exists_eq_left', false_and, exists_false, false_or,
        Utf8.valid_append (equalsSign_valid q), axisText_equalsSign, Optional, elevation.injEq,
        reduceCtorEq, not_exists, max, hmax, and_true]
      exact and_congr_right fun _ => and_comm

/-- **When an angle is a decimal number.** Only decimal numbers are read as
angles, unless the text is one of the `LooseAngle`s: every one of those is
read that is valid UTF-8 and in range, where the rule for both axes does
not apply. -/
theorem angles_decimal_iff (form : AngleForm) (s : List UInt8) (hs : Plain s) :
    (∀ n, form.Reads s n → DecimalAngle s n.toNat) ↔
      ¬ ∃ v, LooseAngle form s v ∧ v ≤ form.max ∧ Utf8.Valid s ∧ ¬ form.Shadowed s := by
  constructor
  · intro hall hread
    obtain ⟨v, hloose, hle, hv, hone⟩ := hread
    have hval := toNat_ofNat_of_le (Nat.le_trans hle form.max_le)
    have hread := (form.reads_iff hs (UInt16.ofNat v)).mpr
      ⟨hv, hone, .inr (by rwa [hval]), by omega⟩
    exact hloose.not_decimal (hall _ hread)
  · intro hno n hread
    obtain ⟨hv, hone, hspelt, hle⟩ := (form.reads_iff hs n).mp hread
    exact hspelt.resolve_right fun hloose => hno ⟨_, hloose, hle, hv, hone⟩

/-- The criterion on a position with its `=`. -/
theorem angles_decimal_iff_position :
    (∀ n, (AngleForm.azimuth true).Reads (bytes "180.5") n → DecimalAngle (bytes "180.5") n.toNat) ↔
      ¬ ∃ v, LooseAngle (.azimuth true) (bytes "180.5") v ∧ v ≤ (AngleForm.azimuth true).max ∧
        Utf8.Valid (bytes "180.5") ∧ ¬ (AngleForm.azimuth true).Shadowed (bytes "180.5") :=
  angles_decimal_iff _ _ (by decide)

/-- `AZ+45`, and two frames that lost the terminator between them: the first
angle is set, and what follows its dot is dropped. -/
theorem loose_angle_read :
    (Plain (bytes "+45") ∧ decodeCommand (bytes "AZ+45") = .ok (some (.azimuth 45)) ∧
      ¬ ∀ n, AngleForm.setAzimuth.Reads (bytes "+45") n → DecimalAngle (bytes "+45") n.toNat) ∧
    (Plain (bytes "10.5EL20.5") ∧
      decodeCommand (bytes "AZ10.5EL20.5") = .ok (some (.azimuth 10)) ∧
      ¬ ∀ n, AngleForm.setAzimuth.Reads (bytes "10.5EL20.5") n →
        DecimalAngle (bytes "10.5EL20.5") n.toNat) := by
  have hplus : LooseAngle .setAzimuth (bytes "+45") 45 :=
    @LooseAngle.plus _ (bytes "45") [] (by decide) (.inl rfl)
  have hfrac : LooseAngle .setAzimuth (bytes "10.5EL20.5") 10 :=
    @LooseAngle.fraction _ (bytes "10") _ (by decide) ⟨byte 'E', by decide, by decide⟩
  have h45 : decodeCommand (bytes "AZ+45") = .ok (some (.azimuth 45)) := by decide
  have h10 : decodeCommand (bytes "AZ10.5EL20.5") = .ok (some (.azimuth 10)) := by decide
  refine ⟨⟨by decide, h45, fun hall => ?_⟩, by decide, h10, fun hall => ?_⟩
  · exact hplus.not_decimal (hall 45 (.inl h45))
  · exact hfrac.not_decimal (hall 10 (.inl h10))

end Easycom
