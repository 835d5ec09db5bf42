import Easycom.Decode

/-!
# Easycom — Fields

The fields both decoders read, as texts: an angle with or without a
fraction, the three-digit fields of GS-232, and the `<reg>,<val>` pair.
Each helper of the decoders gets one specification: it does not panic,
and it returns a number exactly on the texts of that number.
-/

namespace Easycom

open Rust

/-- The text of an angle: a numeral, or a numeral, a dot and any text. -/
inductive AngleText : List UInt8 → Nat → Prop where
  | whole {s : List UInt8} {v : Nat} (h : Numeral s v) : AngleText s v
  | fraction {s : List UInt8} {v : Nat} (h : Numeral s v) (frac : List UInt8) :
      AngleText (s ++ byte '.' :: frac) v

/-- The text of a register and its value. -/
inductive RegisterText : List UInt8 → Nat → Int → Prop where
  | mk {s t : List UInt8} {r : Nat} {v : Int} (hr : Numeral s r)
      (hv : SignedNumeral t v) : RegisterText (s ++ byte ',' :: t) r v

/-- A field of exactly three digits. -/
structure Field3 (ds : List UInt8) (v : Nat) : Prop where
  length : ds.length = 3
  all : ∀ b ∈ ds, isDigit b = true
  value : digitsValue ds = v

/-- A sign and a field of exactly three digits. -/
inductive SignedField3 : List UInt8 → Int → Prop where
  | plus {ds : List UInt8} {v : Nat} (h : Field3 ds v) :
      SignedField3 (byte '+' :: ds) v
  | minus {ds : List UInt8} {v : Nat} (h : Field3 ds v) :
      SignedField3 (byte '-' :: ds) (-v)

/-! ## Numbers within a bound -/

theorem toNat_ofNat_of_le {v : Nat} {b : UInt16} (h : v ≤ b.toNat) :
    (UInt16.ofNat v).toNat = v := by
  have hb := b.toNat_lt
  exact UInt16.toNat_ofNat_of_lt' (show v < 2 ^ 16 by omega)

theorem ofNat_le {v : Nat} {b : UInt16} (h : v ≤ b.toNat) : UInt16.ofNat v ≤ b := by
  rwa [UInt16.le_iff_toNat_le, toNat_ofNat_of_le h]

/-! ## Numerals and separators -/

/-- A byte that is neither a digit nor a plus sign occurs in no numeral. -/
theorem not_mem_numeral {s : List UInt8} {v : Nat} {c : UInt8} (h : Numeral s v)
    (hc : isDigit c = false) (hplus : c ≠ byte '+') : c ∉ s := by
  intro hmem
  rcases h.mem c hmem with hd | hp
  · simp [hc] at hd
  · exact hplus hp

theorem AngleText.ne_nil {s : List UInt8} {v : Nat} (h : AngleText s v) : s ≠ [] := by
  cases h with
  | whole h => exact h.ne_nil
  | fraction h frac => simp

/-- Without a dot, the text of an angle is a numeral. -/
theorem angleText_of_no_dot {s : List UInt8} {v : Nat} (hs : byte '.' ∉ s) :
    AngleText s v ↔ Numeral s v := by
  constructor
  · intro h
    cases h with
    | whole h => exact h
    | fraction h frac => exact absurd (by simp) hs
  · exact .whole

/-- With a dot, the angle is the numeral before the first one. -/
theorem angleText_of_dot {s frac : List UInt8} {v : Nat} (hs : byte '.' ∉ s) :
    AngleText (s ++ byte '.' :: frac) v ↔ Numeral s v := by
  constructor
  · intro h
    generalize ht : s ++ byte '.' :: frac = t at h
    cases h with
    | whole h =>
        subst ht
        exact absurd (by simp) (not_mem_numeral (c := byte '.') h (by decide) (by decide))
    | fraction h frac' =>
        obtain ⟨rfl, -⟩ := (append_cons_inj hs (not_mem_numeral h (by decide) (by decide))).mp ht
        exact h
  · exact fun h => .fraction h frac

theorem registerText_split {s t : List UInt8} {r : Nat} {v : Int}
    (hs : byte ',' ∉ s) :
    RegisterText (s ++ byte ',' :: t) r v ↔ Numeral s r ∧ SignedNumeral t v := by
  constructor
  · intro h
    generalize hu : s ++ byte ',' :: t = u at h
    cases h with
    | mk hr hv =>
        obtain ⟨rfl, rfl⟩ := (append_cons_inj hs (not_mem_numeral hr (by decide) (by decide))).mp hu
        exact ⟨hr, hv⟩
  · exact fun h => .mk h.1 h.2

theorem RegisterText.comma_mem {s : List UInt8} {r : Nat} {v : Int}
    (h : RegisterText s r v) : byte ',' ∈ s := by
  cases h
  simp

/-- A numeral is ASCII. -/
theorem numeral_ascii {s : List UInt8} {v : Nat} (h : Numeral s v) :
    ∀ b ∈ s, b < 0x80 := by
  intro b hb
  rcases h.mem b hb with hd | rfl
  · have := isDigit_iff.mp hd
    rw [UInt8.lt_iff_toNat_lt]
    exact Nat.lt_of_le_of_lt this.2 (by decide)
  · decide

theorem numeral_valid {s : List UInt8} {v : Nat} (h : Numeral s v) :
    Utf8.Valid s := Utf8.valid_of_ascii (numeral_ascii h)

theorem registerText_valid {s : List UInt8} {r : Nat} {v : Int}
    (h : RegisterText s r v) : Utf8.Valid s := by
  cases h with
  | mk hr hv =>
      refine (Utf8.valid_cut (by decide)).mpr ⟨numeral_valid hr, ?_⟩
      cases hv with
      | nonneg h => exact numeral_valid h
      | neg h => exact (Utf8.valid_cons_ascii (by decide)).mpr (numeral_valid (.plain h))

/-! ## The helpers -/

theorem parseFloatU16_spec (s : Str) :
    Returns (parseFloatU16 s) fun r =>
      ∀ n : UInt16, r = some n ↔ AngleText s.bytes n.toNat := by
  rw [parseFloatU16]
  by_cases hempty : s.isEmpty = true
  · refine ⟨none, by rw [if_pos hempty]; rfl, fun n => ?_⟩
    have hnil : s.bytes = [] := List.isEmpty_iff.mp hempty
    constructor
    · intro h
      cases h
    · intro h
      exact absurd hnil h.ne_nil
  · rw [if_neg hempty]
    by_cases hdot : byte '.' ∈ s.bytes
    · obtain ⟨ip, frac, hs, hip⟩ := exists_first hdot
      obtain ⟨hv, -, hslice, -⟩ := Str.slices_at (by decide) hs
      have hfind : s.find (lit ".") = some ip.length := by
        rw [Str.find, hs]
        exact find_byte_append hip
      rw [hfind]
      simp only [hslice, ok_bind, pure_eq]
      refine ⟨_, rfl, fun n => ?_⟩
      rw [Str.parseU16, parseU16_eq_some, hs, angleText_of_dot hip]
    · have hfind : s.find (lit ".") = none := find_byte_none.mpr hdot
      rw [hfind]
      refine ⟨_, rfl, fun n => ?_⟩
      rw [Str.parseU16, parseU16_eq_some, angleText_of_no_dot hdot]

/-- An angle behind a label. -/
theorem labelledAngle_spec (s label : Str) :
    Returns (labelledAngle s label) fun r => ∀ n : UInt16,
      r = some n ↔ ∃ t, s.bytes = label.bytes ++ t ∧ AngleText t n.toNat := by
  rw [labelledAngle]
  cases h : s.stripPrefix label with
  | some val =>
      have hs := Str.stripPrefix_eq_some.mp h
      refine (parseFloatU16_spec val).mono fun r hr n => ?_
      rw [hr, hs]
      simp
  | none =>
      have hs := Str.stripPrefix_eq_none.mp h
      refine ⟨none, rfl, fun n => ?_⟩
      simp only [reduceCtorEq, false_iff, not_exists, not_and]
      exact fun t ht => absurd ⟨t, ht.symm⟩ hs

theorem parseRegisterValue_spec (s : Str) :
    Returns (parseRegisterValue s) fun r =>
      ∀ reg val, r = some (reg, val) ↔ RegisterText s.bytes reg.toNat val.toInt := by
  rw [parseRegisterValue]
  by_cases hcomma : byte ',' ∈ s.bytes
  · obtain ⟨left, right, hs, hleft⟩ := exists_first hcomma
    obtain ⟨hl, hr, hslice, hslice'⟩ := Str.slices_at (by decide) hs
    have hfind : s.find (lit ",") = some left.length := by
      rw [Str.find, hs]
      exact find_byte_append hleft
    rw [hfind]
    simp only [hslice, hslice', ok_bind, hs, registerText_split hleft,
      ← parseU16_eq_some, ← parseI32_eq_some]
    simp only [Str.parseU16, Str.parseI32]
    cases parseU16 left with
    | none => exact ⟨none, rfl, by simp⟩
    | some reg =>
        cases parseI32 right with
        | none => exact ⟨none, rfl, by simp⟩
        | some val => exact ⟨some (reg, val), rfl, by simp⟩
  · have hfind : s.find (lit ",") = none := find_byte_none.mpr hcomma
    rw [hfind]
    refine ⟨none, rfl, fun reg val => ?_⟩
    constructor
    · intro h
      cases h
    · intro h
      exact absurd h.comma_mem hcomma

theorem asciiDigit_digit {b : UInt8} (h : isDigit b = true) :
    ∃ v, asciiDigit b = .ok (some v) ∧ v.toNat = digitValue b := by
  have hb := isDigit_iff.mp h
  have h0 : (byte '0').toNat = 48 := by decide
  have h9 : (byte '9').toNat = 57 := by decide
  have hle : byte '0' ≤ b := UInt8.le_iff_toNat_le.mpr (by omega)
  have hle' : b ≤ byte '9' := UInt8.le_iff_toNat_le.mpr (by omega)
  refine ⟨b - byte '0', by simp [asciiDigit, subU8, hle, hle'], ?_⟩
  rw [UInt8.toNat_sub_of_le _ _ hle, h0]
  rfl

theorem asciiDigit_none {b : UInt8} (h : isDigit b = false) :
    asciiDigit b = .ok none := by
  have hneg : ¬ (byte '0' ≤ b ∧ b ≤ byte '9') := by
    simpa [isDigit, byte] using h
  simp [asciiDigit, if_neg hneg]

/-- Three digits give their value; the `u16` arithmetic cannot overflow. -/
theorem parseU16_3digit_digits {d0 d1 d2 : UInt8}
    (hall : ∀ b ∈ [d0, d1, d2], isDigit b = true) :
    Returns (parseU16_3digit d0 d1 d2) fun r =>
      ∃ n : UInt16, r = some n ∧ n.toNat = digitsValue [d0, d1, d2] := by
  obtain ⟨a, ha, hav⟩ := asciiDigit_digit (hall d0 (by simp))
  obtain ⟨b, hb, hbv⟩ := asciiDigit_digit (hall d1 (by simp))
  obtain ⟨c, hc, hcv⟩ := asciiDigit_digit (hall d2 (by simp))
  have ha9 := digitValue_lt (hall d0 (by simp))
  have hb9 := digitValue_lt (hall d1 (by simp))
  have hc9 := digitValue_lt (hall d2 (by simp))
  have h100 : (100 : UInt16).toNat = 100 := rfl
  have h10 : (10 : UInt16).toNat = 10 := rfl
  rw [parseU16_3digit, ha, hb, hc]
  simp only [ok_bind]
  refine (mulU16_returns (by rw [UInt8.toNat_toUInt16, h100]; omega)).bind fun x hx => ?_
  refine (mulU16_returns (by rw [UInt8.toNat_toUInt16, h10]; omega)).bind fun y hy => ?_
  rw [UInt8.toNat_toUInt16, h100, hav] at hx
  rw [UInt8.toNat_toUInt16, h10, hbv] at hy
  refine (addU16_returns (by omega)).bind fun xy hxy => ?_
  refine (addU16_returns (by rw [UInt8.toNat_toUInt16]; omega)).bind fun n hn => ?_
  rw [UInt8.toNat_toUInt16, hcv, hxy, hx, hy] at hn
  refine ⟨_, rfl, n, rfl, ?_⟩
  simp only [digitsValue, valueFrom_cons, valueFrom_nil]
  omega

/-- The first byte that is no digit ends the field. -/
theorem parseU16_3digit_none {d0 d1 d2 : UInt8}
    (h : ¬ ∀ b ∈ [d0, d1, d2], isDigit b = true) :
    parseU16_3digit d0 d1 d2 = .ok none := by
  simp only [List.mem_cons, List.not_mem_nil, or_false, forall_eq_or_imp, forall_eq, not_and,
    Bool.not_eq_true] at h
  rw [parseU16_3digit]
  by_cases h0 : isDigit d0 = true
  · obtain ⟨a, ha, -⟩ := asciiDigit_digit h0
    rw [ha, ok_bind]
    by_cases h1 : isDigit d1 = true
    · obtain ⟨b, hb, -⟩ := asciiDigit_digit h1
      simp [hb, asciiDigit_none (h h0 h1)]
    · simp [asciiDigit_none (Bool.not_eq_true _ ▸ h1)]
  · simp [asciiDigit_none (Bool.not_eq_true _ ▸ h0)]

/-- **The three-digit field is read exactly.** -/
theorem parseU16_3digit_spec (d0 d1 d2 : UInt8) :
    Returns (parseU16_3digit d0 d1 d2) fun r =>
      ∀ n : UInt16, r = some n ↔ Field3 [d0, d1, d2] n.toNat := by
  by_cases hall : ∀ b ∈ [d0, d1, d2], isDigit b = true
  · refine (parseU16_3digit_digits hall).mono fun r hr n => ?_
    obtain ⟨m, rfl, hm⟩ := hr
    rw [Option.some.injEq, ← UInt16.toNat_inj, hm]
    exact ⟨fun h => ⟨rfl, hall, h⟩, fun h => h.value⟩
  · refine ⟨none, parseU16_3digit_none hall, fun n => ?_⟩
    exact ⟨fun h => (by cases h), fun h => absurd h.all hall⟩

theorem Field3.lt {ds : List UInt8} {v : Nat} (h : Field3 ds v) : v < 1000 := by
  obtain ⟨hlen, hall, rfl⟩ := h
  match ds, hlen with
  | [a, b, c], _ =>
      have := digitValue_lt (hall a (by simp))
      have := digitValue_lt (hall b (by simp))
      have := digitValue_lt (hall c (by simp))
      simp only [digitsValue, valueFrom_cons, valueFrom_nil]
      omega

theorem signedField3_cons {sign : UInt8} {ds : List UInt8} {v : Int} :
    SignedField3 (sign :: ds) v ↔
      (sign = byte '+' ∧ ∃ m : Nat, Field3 ds m ∧ v = m) ∨
      (sign = byte '-' ∧ ∃ m : Nat, Field3 ds m ∧ v = -m) := by
  constructor
  · intro h
    cases h with
    | plus h => exact .inl ⟨rfl, _, h, rfl⟩
    | minus h => exact .inr ⟨rfl, _, h, rfl⟩
  · rintro (⟨rfl, m, h, rfl⟩ | ⟨rfl, m, h, rfl⟩)
    · exact .plus h
    · exact .minus h

/-- A `u16` below 1000 keeps its value as an `i16`. -/
theorem toInt16_toInt {m : UInt16} (h : m.toNat < 1000) : m.toInt16.toInt = m.toNat := by
  rw [← Int16.toInt_toBitVec, UInt16.toBitVec_toInt16, BitVec.toInt_eq_toNat_of_lt]
  · rfl
  · rw [UInt16.toNat_toBitVec]
    omega

theorem negI16_eq {m : UInt16} (h : m.toNat < 1000) :
    negI16 m.toInt16 = .ok (-m.toInt16) ∧ (-m.toInt16).toInt = -(m.toNat : Int) := by
  have hm := toInt16_toInt h
  constructor
  · rw [negI16, if_neg]
    intro hmin
    rw [hmin, Int16.toInt_minValue] at hm
    omega
  · rw [Int16.toInt_neg, hm, Int.bmod_eq_of_le (by omega) (by omega)]

theorem parseSigned3digit_spec (sign d0 d1 d2 : UInt8) :
    Returns (parseSigned3digit sign d0 d1 d2) fun r =>
      ∀ n : Int16, r = some n ↔ SignedField3 [sign, d0, d1, d2] n.toInt := by
  obtain ⟨r, hr, hiff⟩ := parseU16_3digit_spec d0 d1 d2
  rw [parseSigned3digit, hr, ok_bind]
  cases r with
  | none =>
      have hno : ∀ m, ¬ Field3 [d0, d1, d2] m := fun m hm => by
        have hlt := hm.lt
        have := (hiff (UInt16.ofNat m)).mpr
          (by rwa [UInt16.toNat_ofNat_of_lt' (show m < 2 ^ 16 by omega)])
        cases this
      exact ⟨none, rfl, fun n => by simp [signedField3_cons, hno]⟩
  | some m =>
      have hm := (hiff m).mp rfl
      have hval : ∀ k, Field3 [d0, d1, d2] k ↔ k = m.toNat := fun k =>
        ⟨fun hk => hk.value.symm.trans hm.value, fun hk => hk ▸ hm⟩
      have hplus := toInt16_toInt hm.lt
      obtain ⟨hneg, hminus⟩ := negI16_eq hm.lt
      simp only [signedField3_cons, hval, exists_eq_left]
      rw [← hminus, ← hplus]
      simp only [Int16.toInt_inj]
      by_cases h1 : sign = byte '+'
      · subst h1
        exact ⟨some m.toInt16, rfl, fun n => by simp [byte, eq_comm]⟩
      · by_cases h2 : sign = byte '-'
        · subst h2
          exact ⟨some (-m.toInt16), by simp [byte, hneg],
            fun n => by simp [byte, eq_comm]⟩
        · exact ⟨none, by simp [h1, h2], fun n => by simp [h1, h2]⟩

end Easycom
