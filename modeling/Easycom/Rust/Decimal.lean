import Mathlib.Data.Nat.Digits.Lemmas
import Easycom.Rust.Checked

/-!
# Rust — Decimal

ASCII decimal numerals: the value of a digit string, the canonical
numeral of a number, the fixed-width three-digit field, and
`str::parse` for `u16`, `u32` and `i32`.

`str::parse` is specified by two relations, `Numeral` and
`SignedNumeral`, which say which byte strings spell which numbers. Every
proof about a parser's input goes through them (`parseU16_eq_some` and
its siblings), never through the parsing loop.
-/

namespace Rust

/-! ## Digit strings -/

/-- The ASCII digit of `d % 10`. -/
def digit (d : Nat) : UInt8 := UInt8.ofNat (48 + d % 10)

/-- `b'0'..=b'9'`. -/
def isDigit (b : UInt8) : Bool := 48 ≤ b && b ≤ 57

def digitValue (b : UInt8) : Nat := b.toNat - 48

/-- The value of a digit string read after the value `acc`. -/
def valueFrom (acc : Nat) (ds : List UInt8) : Nat :=
  ds.foldl (fun v b => v * 10 + digitValue b) acc

/-- The value of a digit string. -/
def digitsValue (ds : List UInt8) : Nat := valueFrom 0 ds

/-- A non-empty string of digits. -/
structure Digits (ds : List UInt8) : Prop where
  ne_nil : ds ≠ []
  all : ∀ b ∈ ds, isDigit b = true

instance (ds : List UInt8) : Decidable (Digits ds) :=
  decidable_of_iff (ds ≠ [] ∧ ds.all isDigit = true)
    ⟨fun h => ⟨h.1, List.all_eq_true.mp h.2⟩, fun h => ⟨h.1, List.all_eq_true.mpr h.2⟩⟩

theorem isDigit_iff {b : UInt8} :
    isDigit b = true ↔ 48 ≤ b.toNat ∧ b.toNat ≤ 57 := by
  simp [isDigit, UInt8.le_iff_toNat_le]

@[simp] theorem digit_toNat (d : Nat) : (digit d).toNat = 48 + d % 10 := by
  simp only [digit, UInt8.toNat_ofNat']
  omega

@[simp] theorem isDigit_digit (d : Nat) : isDigit (digit d) = true := by
  rw [isDigit_iff, digit_toNat]
  omega

@[simp] theorem digitValue_digit (d : Nat) : digitValue (digit d) = d % 10 := by
  simp [digitValue]

theorem digitValue_lt {b : UInt8} (h : isDigit b = true) : digitValue b < 10 := by
  rw [isDigit_iff] at h
  simp only [digitValue]
  omega

@[simp] theorem valueFrom_nil (acc : Nat) : valueFrom acc [] = acc := rfl

@[simp] theorem valueFrom_cons (acc : Nat) (b : UInt8) (ds : List UInt8) :
    valueFrom acc (b :: ds) = valueFrom (acc * 10 + digitValue b) ds := by
  simp only [valueFrom, List.foldl_cons]

theorem valueFrom_append (acc : Nat) (xs ys : List UInt8) :
    valueFrom acc (xs ++ ys) = valueFrom (valueFrom acc xs) ys := by
  simp [valueFrom, List.foldl_append]

theorem le_valueFrom (acc : Nat) (ds : List UInt8) :
    acc ≤ valueFrom acc ds := by
  induction ds generalizing acc with
  | nil => exact Nat.le_refl _
  | cons b ds ih =>
      have := ih (acc * 10 + digitValue b)
      rw [valueFrom_cons]
      omega

theorem valueFrom_eq (acc : Nat) (ds : List UInt8) :
    valueFrom acc ds = acc * 10 ^ ds.length + digitsValue ds := by
  induction ds generalizing acc with
  | nil => simp [digitsValue]
  | cons b ds ih =>
      rw [digitsValue, valueFrom_cons, valueFrom_cons, ih, ih (0 * 10 + digitValue b),
        List.length_cons, Nat.pow_succ]
      ring

theorem digitsValue_append (xs ys : List UInt8) :
    digitsValue (xs ++ ys) = digitsValue xs * 10 ^ ys.length + digitsValue ys := by
  rw [digitsValue, valueFrom_append, valueFrom_eq]
  rfl

/-- A digit string is below the power of ten of its length. -/
theorem digitsValue_lt {ds : List UInt8} (h : ∀ b ∈ ds, isDigit b = true) :
    digitsValue ds < 10 ^ ds.length := by
  induction ds with
  | nil => decide
  | cons b ds ih =>
      have hb := digitValue_lt (h b (by simp))
      have hds := ih fun c hc => h c (by simp [hc])
      calc digitsValue (b :: ds)
          = digitValue b * 10 ^ ds.length + digitsValue ds := by
            rw [← List.singleton_append, digitsValue_append]
            simp [digitsValue]
        _ < digitValue b * 10 ^ ds.length + 10 ^ ds.length := by omega
        _ = (digitValue b + 1) * 10 ^ ds.length := by ring
        _ ≤ 10 * 10 ^ ds.length := Nat.mul_le_mul_right _ (by omega)
        _ = 10 ^ (b :: ds).length := by rw [List.length_cons, Nat.pow_succ, Nat.mul_comm]

/-- Of a number, the first digits alone are the number only if it is zero. -/
theorem digitsValue_take_eq_iff {ds : List UInt8} {k : Nat} (hk : k < ds.length) :
    digitsValue (ds.take k) = digitsValue ds ↔ digitsValue ds = 0 := by
  have hcut := digitsValue_append (ds.take k) (ds.drop k)
  rw [List.take_append_drop] at hcut
  have hten : 10 ≤ 10 ^ (ds.drop k).length :=
    Nat.le_self_pow (by rw [List.length_drop]; omega) 10
  have hmul := Nat.mul_le_mul_left (digitsValue (ds.take k)) hten
  omega

/-! ## The canonical numeral -/

/-- The decimal numeral of `n`: no leading zeros, `"0"` for zero. -/
def decimal (n : Nat) : List UInt8 :=
  if n = 0 then [digit 0] else ((Nat.digits 10 n).map digit).reverse

/-- The decimal numeral of an integer, `-` in front of a negative one. -/
def decimalInt (n : Int) : List UInt8 :=
  if n < 0 then byte '-' :: decimal n.natAbs else decimal n.natAbs

/-- The last three digits of `n`, zero-padded. -/
def digits3 (n : Nat) : List UInt8 := [digit (n / 100), digit (n / 10), digit n]

@[simp] theorem digits3_length (n : Nat) : (digits3 n).length = 3 := rfl

theorem valueFrom_reverse_digits (l : List Nat) (hl : ∀ d ∈ l, d < 10) :
    digitsValue (l.map digit).reverse = Nat.ofDigits 10 l := by
  induction l with
  | nil => rfl
  | cons d l ih =>
      have hd : d % 10 = d := Nat.mod_eq_of_lt (hl d (by simp))
      simp only [List.map_cons, List.reverse_cons, digitsValue, valueFrom_append,
        valueFrom_cons, valueFrom_nil, digitValue_digit, hd, Nat.ofDigits_cons] at ih ⊢
      rw [ih (fun e he => hl e (by simp [he]))]
      omega

/-- The numeral of `n` spells `n`. -/
@[simp] theorem digitsValue_decimal (n : Nat) : digitsValue (decimal n) = n := by
  rw [decimal]
  split
  · rename_i h
    rw [h]
    rfl
  · rw [valueFrom_reverse_digits _ (fun d hd => Nat.digits_lt_base (by decide) hd),
      Nat.ofDigits_digits]

theorem decimal_digits (n : Nat) : Digits (decimal n) := by
  rw [decimal]
  split
  · exact ⟨by simp, by simp⟩
  · rename_i h
    exact ⟨by simpa [Nat.digits_eq_nil_iff_eq_zero] using h, by simp⟩

/-- The digits of `n`, without leading zeros. -/
structure Canonical (ds : List UInt8) (n : Nat) : Prop where
  digits : Digits ds
  value : digitsValue ds = n
  no_zero : ∀ t, ds = byte '0' :: t → t = []

theorem decimal_canonical (n : Nat) : Canonical (decimal n) n := by
  refine ⟨decimal_digits n, digitsValue_decimal n, ?_⟩
  intro t ht
  rw [decimal] at ht
  split at ht
  · exact (List.tail_eq_of_cons_eq ht).symm
  · -- the first digit is the last of `Nat.digits`, which is not zero
    rename_i hn
    have hne : Nat.digits 10 n ≠ [] := Nat.digits_ne_nil_iff_ne_zero.mpr hn
    have hlast := Nat.getLast_digit_ne_zero 10 hn
    have hlt := Nat.digits_lt_base (by decide) (List.getLast_mem hne)
    have hhead : digit ((Nat.digits 10 n).getLast hne) = byte '0' := by
      rw [← List.dropLast_append_getLast hne, List.map_append, List.reverse_append] at ht
      exact List.head_eq_of_cons_eq ht
    have hval := congrArg digitValue hhead
    rw [digitValue_digit, Nat.mod_eq_of_lt hlt] at hval
    exact absurd hval hlast

theorem decimal_length_le {n k : Nat} (hk : 0 < k) (h : n < 10 ^ k) :
    (decimal n).length ≤ k := by
  rw [decimal]
  split
  · exact hk
  · simpa using (Nat.digits_length_le_iff (by decide) n).mpr h

theorem digits3_digits (n : Nat) : Digits (digits3 n) :=
  ⟨by simp [digits3], by simp [digits3]⟩

/-- A three-digit field holds its number modulo 1000. -/
@[simp] theorem digitsValue_digits3 (n : Nat) :
    digitsValue (digits3 n) = n % 1000 := by
  simp only [digitsValue, digits3, valueFrom_cons, valueFrom_nil, digitValue_digit]
  omega

theorem digits3_eq_iff {m n : Nat} : digits3 m = digits3 n ↔ m % 1000 = n % 1000 := by
  constructor
  · intro h
    rw [← digitsValue_digits3, h, digitsValue_digits3]
  · intro h
    have hd : ∀ i j : Nat, i % 10 = j % 10 → digit i = digit j := by
      intro i j hij
      rw [digit, digit, hij]
    rw [digits3, digits3, hd (m / 100) (n / 100) (by omega), hd (m / 10) (n / 10) (by omega),
      hd m n (by omega)]

/-! ## Reading numerals -/

/-- The digit loop of `from_str_radix(10)`: every step multiplies and adds
with a check against the largest value of the type. -/
def accumulate (max : Nat) : Nat → List UInt8 → Option Nat
  | acc, [] => some acc
  | acc, b :: ds =>
      if isDigit b then
        if acc * 10 + digitValue b ≤ max then
          accumulate max (acc * 10 + digitValue b) ds
        else none
      else none

/-- `str::parse` for an unsigned type with largest value `max`: an
optional `+`, then at least one digit. -/
def parseUint (max : Nat) : List UInt8 → Option Nat
  | [] => none
  | b :: ds =>
      if b = byte '+' then
        if ds.isEmpty then none else accumulate max 0 ds
      else accumulate max 0 (b :: ds)

/-- `str::parse::<u16>().ok()`. -/
def parseU16 (s : List UInt8) : Option UInt16 :=
  (parseUint 65535 s).map UInt16.ofNat

/-- `str::parse::<u32>().ok()`. -/
def parseU32 (s : List UInt8) : Option UInt32 :=
  (parseUint 4294967295 s).map UInt32.ofNat

/-- `str::parse::<i32>().ok()`: a `-` counts downwards, to `i32::MIN`. -/
def parseI32 : List UInt8 → Option Int32
  | [] => none
  | b :: ds =>
      if b = byte '-' then
        if ds.isEmpty then none
        else (accumulate 2147483648 0 ds).map fun v : Nat => Int32.ofInt (-v)
      else (parseUint 2147483647 (b :: ds)).map fun v : Nat => Int32.ofInt v

/-- `s` spells the natural number `v`: digits, with or without a `+`. -/
inductive Numeral : List UInt8 → Nat → Prop where
  | plain {ds : List UInt8} (h : Digits ds) : Numeral ds (digitsValue ds)
  | plus {ds : List UInt8} (h : Digits ds) :
      Numeral (byte '+' :: ds) (digitsValue ds)

/-- `s` spells the integer `v`: a numeral, or `-` and digits. -/
inductive SignedNumeral : List UInt8 → Int → Prop where
  | nonneg {s : List UInt8} {v : Nat} (h : Numeral s v) : SignedNumeral s v
  | neg {ds : List UInt8} (h : Digits ds) :
      SignedNumeral (byte '-' :: ds) (-(digitsValue ds : Int))

theorem accumulate_eq_some {max acc v : Nat} {ds : List UInt8} :
    accumulate max acc ds = some v ↔
      (∀ b ∈ ds, isDigit b = true) ∧ valueFrom acc ds = v ∧ (ds ≠ [] → v ≤ max) := by
  induction ds generalizing acc with
  | nil => simp [accumulate]
  | cons b ds ih =>
      simp only [accumulate, valueFrom_cons, List.mem_cons, forall_eq_or_imp,
        ne_eq, reduceCtorEq, not_false_eq_true, true_imp_iff]
      by_cases hb : isDigit b = true
      · have hle := le_valueFrom (acc * 10 + digitValue b) ds
        by_cases hmax : acc * 10 + digitValue b ≤ max
        · rw [if_pos hb, if_pos hmax, ih]
          constructor
          · rintro ⟨hall, hv, hne⟩
            refine ⟨⟨hb, hall⟩, hv, ?_⟩
            by_cases hds : ds = []
            · subst hds
              simpa [← hv] using hmax
            · exact hne hds
          · rintro ⟨⟨-, hall⟩, hv, hle'⟩
            exact ⟨hall, hv, fun _ => hle'⟩
        · rw [if_pos hb, if_neg hmax]
          constructor
          · intro h
            cases h
          · rintro ⟨-, hv, hle'⟩
            omega
      · rw [if_neg hb]
        constructor
        · intro h
          cases h
        · rintro ⟨⟨hb', -⟩, -⟩
          exact absurd hb' hb

theorem accumulate_digits {max v : Nat} {ds : List UInt8} (hne : ds ≠ []) :
    accumulate max 0 ds = some v ↔ Digits ds ∧ digitsValue ds = v ∧ v ≤ max := by
  rw [accumulate_eq_some]
  constructor
  · rintro ⟨hall, hv, hle⟩
    exact ⟨⟨hne, hall⟩, hv, hle hne⟩
  · rintro ⟨hds, hv, hle⟩
    exact ⟨hds.all, hv, fun _ => hle⟩

theorem Digits.not_mem {b : UInt8} {ds : List UInt8} (h : Digits ds)
    (hb : isDigit b = false) : b ∉ ds := by
  intro hmem
  rw [h.all b hmem] at hb
  cases hb

/-- What is no digit is in no canonical numeral, -/
theorem not_mem_decimal {b : UInt8} {n : Nat} (hb : isDigit b = false) : b ∉ decimal n :=
  (decimal_digits n).not_mem hb

/-- in none of an integer, if it is no sign, -/
theorem not_mem_decimalInt {b : UInt8} {n : Int} (hb : isDigit b = false)
    (hminus : b ≠ byte '-') : b ∉ decimalInt n := by
  rw [decimalInt]
  split
  · rw [List.mem_cons, not_or]
    exact ⟨hminus, not_mem_decimal hb⟩
  · exact not_mem_decimal hb

/-- and in no three-digit field. -/
theorem not_mem_digits3 {b : UInt8} {n : Nat} (hb : isDigit b = false) : b ∉ digits3 n :=
  (digits3_digits n).not_mem hb

theorem digits3_ne_cons {b : UInt8} (hb : isDigit b = false) (n : Nat) (s : List UInt8) :
    digits3 n ≠ b :: s := by
  intro h
  exact not_mem_digits3 (n := n) hb (by simp [h])

theorem Digits.head {b : UInt8} {ds : List UInt8} (h : Digits (b :: ds)) :
    isDigit b = true := h.all b (by simp)

theorem not_numeral_nil {v : Nat} : ¬ Numeral [] v := by
  intro h
  generalize hs : ([] : List UInt8) = s at h
  cases h with
  | plain h => exact h.ne_nil hs.symm
  | plus h => cases hs

/-- Behind a `+` stand digits. -/
theorem numeral_plus {ds : List UInt8} {v : Nat} :
    Numeral (byte '+' :: ds) v ↔ Digits ds ∧ digitsValue ds = v := by
  constructor
  · intro h
    generalize hs : byte '+' :: ds = s at h
    cases h with
    | plain h =>
        subst hs
        exact absurd h.head (by decide)
    | plus h =>
        cases hs
        exact ⟨h, rfl⟩
  · rintro ⟨h, rfl⟩
    exact .plus h

/-- Without a `+`, a numeral is a digit string. -/
theorem numeral_of_ne {b : UInt8} {ds : List UInt8} {v : Nat} (hb : b ≠ byte '+') :
    Numeral (b :: ds) v ↔ Digits (b :: ds) ∧ digitsValue (b :: ds) = v := by
  constructor
  · intro h
    generalize hs : b :: ds = s at h
    cases h with
    | plain h => exact ⟨h, rfl⟩
    | plus h =>
        cases hs
        exact absurd rfl hb
  · rintro ⟨h, rfl⟩
    exact .plain h

/-- **The unsigned parser reads exactly the numerals of its range.** -/
theorem parseUint_eq_some {max v : Nat} {s : List UInt8} :
    parseUint max s = some v ↔ Numeral s v ∧ v ≤ max := by
  cases s with
  | nil => simp [parseUint, not_numeral_nil]
  | cons b ds =>
      rw [parseUint]
      split
      · rename_i hb
        rw [hb, numeral_plus, and_assoc]
        cases ds with
        | nil => exact ⟨fun h => (by cases h), fun h => absurd rfl h.1.ne_nil⟩
        | cons c ds => exact accumulate_digits (by simp)
      · rename_i hb
        rw [numeral_of_ne hb, and_assoc, accumulate_digits (by simp)]

theorem parseU16_eq_some {s : List UInt8} {n : UInt16} :
    parseU16 s = some n ↔ Numeral s n.toNat := by
  rw [parseU16, Option.map_eq_some_iff]
  constructor
  · rintro ⟨v, hv, rfl⟩
    obtain ⟨h, hle⟩ := parseUint_eq_some.mp hv
    rwa [UInt16.toNat_ofNat_of_lt' (show v < 2 ^ 16 by omega)]
  · intro h
    have hlt := n.toNat_lt
    exact ⟨n.toNat, parseUint_eq_some.mpr ⟨h, by omega⟩, UInt16.ofNat_toNat⟩

theorem parseU32_eq_some {s : List UInt8} {n : UInt32} :
    parseU32 s = some n ↔ Numeral s n.toNat := by
  rw [parseU32, Option.map_eq_some_iff]
  constructor
  · rintro ⟨v, hv, rfl⟩
    obtain ⟨h, hle⟩ := parseUint_eq_some.mp hv
    rwa [UInt32.toNat_ofNat_of_lt' (show v < 2 ^ 32 by omega)]
  · intro h
    have hlt := n.toNat_lt
    exact ⟨n.toNat, parseUint_eq_some.mpr ⟨h, by omega⟩, UInt32.ofNat_toNat⟩

/-- Every byte of a numeral is a digit or a plus sign. -/
theorem Numeral.mem {s : List UInt8} {v : Nat} (h : Numeral s v) :
    ∀ b ∈ s, isDigit b = true ∨ b = byte '+' := by
  intro b hb
  cases h with
  | plain h => exact .inl (h.all b hb)
  | plus h =>
      rcases List.mem_cons.mp hb with rfl | hb
      · exact .inr rfl
      · exact .inl (h.all b hb)

theorem Numeral.ne_nil {s : List UInt8} {v : Nat} (h : Numeral s v) : s ≠ [] := by
  cases h with
  | plain h => exact h.ne_nil
  | plus h => simp

/-- A numeral has one value. -/
theorem Numeral.unique {s : List UInt8} {v w : Nat} (hv : Numeral s v)
    (hw : Numeral s w) : v = w := by
  have hv' := parseUint_eq_some.mpr ⟨hv, Nat.le_max_left v w⟩
  have hw' := parseUint_eq_some.mpr ⟨hw, Nat.le_max_right v w⟩
  exact Option.some.inj (hv'.symm.trans hw')

theorem Numeral.lt {s : List UInt8} {v : Nat} (h : Numeral s v) : v < 10 ^ s.length := by
  cases h with
  | plain h => exact digitsValue_lt h.all
  | plus h =>
      refine Nat.lt_of_lt_of_le (digitsValue_lt h.all) (Nat.pow_le_pow_right (by decide) ?_)
      exact Nat.le_succ _

theorem not_signedNumeral_nil {v : Int} : ¬ SignedNumeral [] v := by
  intro h
  generalize hs : ([] : List UInt8) = s at h
  cases h with
  | nonneg h => exact h.ne_nil hs.symm
  | neg h => cases hs

/-- Behind a `-` stand digits. -/
theorem signedNumeral_minus {ds : List UInt8} {v : Int} :
    SignedNumeral (byte '-' :: ds) v ↔ Digits ds ∧ -(digitsValue ds : Int) = v := by
  constructor
  · intro h
    generalize hs : byte '-' :: ds = s at h
    cases h with
    | nonneg h =>
        subst hs
        exact absurd ((numeral_of_ne (by decide)).mp h).1.head (by decide)
    | neg h =>
        cases hs
        exact ⟨h, rfl⟩
  · rintro ⟨h, rfl⟩
    exact .neg h

/-- Without a `-`, an integer is a numeral. -/
theorem signedNumeral_of_ne {b : UInt8} {ds : List UInt8} {v : Int} (hb : b ≠ byte '-') :
    SignedNumeral (b :: ds) v ↔ ∃ n : Nat, Numeral (b :: ds) n ∧ (n : Int) = v := by
  constructor
  · intro h
    generalize hs : b :: ds = s at h
    cases h with
    | nonneg h => exact ⟨_, h, rfl⟩
    | neg h =>
        cases hs
        exact absurd rfl hb
  · rintro ⟨n, h, rfl⟩
    exact .nonneg h

/-- **The `i32` parser reads exactly the integers of its range.** -/
theorem parseI32_eq_some {s : List UInt8} {n : Int32} :
    parseI32 s = some n ↔ SignedNumeral s n.toInt := by
  have hlo := n.le_toInt
  have hhi := n.toInt_lt
  have hofInt : ∀ v : Int, -2 ^ 31 ≤ v → v < 2 ^ 31 →
      (Int32.ofInt v = n ↔ v = n.toInt) := by
    intro v h1 h2
    rw [← Int32.toInt_inj, Int32.toInt_ofInt_of_le h1 h2]
  cases s with
  | nil => simp [parseI32, not_signedNumeral_nil]
  | cons b ds =>
      rw [parseI32]
      split
      · rename_i hb
        rw [hb, signedNumeral_minus]
        cases ds with
        | nil => exact ⟨fun h => (by cases h), fun h => absurd rfl h.1.ne_nil⟩
        | cons c ds =>
            rw [if_neg (by simp), Option.map_eq_some_iff]
            constructor
            · rintro ⟨v, hv, hn⟩
              obtain ⟨hds, rfl, hle⟩ := (accumulate_digits (by simp)).mp hv
              exact ⟨hds, (hofInt _ (by omega) (by omega)).mp hn⟩
            · rintro ⟨hds, hv⟩
              exact ⟨_, (accumulate_digits (by simp)).mpr ⟨hds, rfl, by omega⟩,
                (hofInt _ (by omega) (by omega)).mpr hv⟩
      · rename_i hb
        rw [signedNumeral_of_ne hb, Option.map_eq_some_iff]
        constructor
        · rintro ⟨v, hv, hn⟩
          obtain ⟨h, hle⟩ := parseUint_eq_some.mp hv
          exact ⟨v, h, (hofInt _ (by omega) (by omega)).mp hn⟩
        · rintro ⟨v, h, hv⟩
          exact ⟨v, parseUint_eq_some.mpr ⟨h, by omega⟩,
            (hofInt _ (by omega) (by omega)).mpr hv⟩

/-- Every byte of an integer is a digit or a sign. -/
theorem SignedNumeral.mem {s : List UInt8} {v : Int} (h : SignedNumeral s v) :
    ∀ b ∈ s, isDigit b = true ∨ b = byte '+' ∨ b = byte '-' := by
  intro b hb
  cases h with
  | nonneg h => exact (h.mem b hb).imp_right .inl
  | neg h =>
      rcases List.mem_cons.mp hb with rfl | hb
      · exact .inr (.inr rfl)
      · exact .inl (h.all b hb)

/-! ## Reading back what was written -/

theorem decimal_numeral (n : Nat) : Numeral (decimal n) n := by
  simpa using Numeral.plain (decimal_digits n)

theorem digits3_numeral {n : Nat} (h : n < 1000) : Numeral (digits3 n) n := by
  simpa [Nat.mod_eq_of_lt h] using Numeral.plain (digits3_digits n)

theorem decimalInt_numeral (n : Int) : SignedNumeral (decimalInt n) n := by
  rw [decimalInt]
  split
  · rename_i h
    have hneg := SignedNumeral.neg (decimal_digits n.natAbs)
    rwa [digitsValue_decimal, show -(n.natAbs : Int) = n by omega] at hneg
  · rename_i h
    have hnonneg := SignedNumeral.nonneg (decimal_numeral n.natAbs)
    rwa [show (n.natAbs : Int) = n by omega] at hnonneg

end Rust
