import Mathlib.Data.List.Basic
import Mathlib.Data.UInt

/-!
# Rust — Utf8

Well-formed UTF-8, as the ranges a byte leaves owed: the first byte of a
character fixes in which range each byte after it must lie, and a byte
string is well formed when every debt is paid and none is left.

What the rest of the development uses: well-formedness is a property one
can cut at a character boundary (`valid_append`, `valid_split`), and a
byte that is not a continuation byte always starts a character.
-/

namespace Rust.Utf8

/-- The ranges in which the next bytes must lie, nearest first. -/
abbrev Owed := List (UInt8 × UInt8)

/-- `0x80..=0xBF`. -/
def tail : UInt8 × UInt8 := (0x80, 0xBF)

/-- What the first byte of a character owes. The narrowed second ranges
exclude overlong forms (`E0`, `F0`), surrogates (`ED`) and code points
past `10FFFF` (`F4`). -/
def lead (b : UInt8) : Option Owed :=
  if b < 0x80 then some []
  else if 0xC2 ≤ b ∧ b ≤ 0xDF then some [tail]
  else if b = 0xE0 then some [(0xA0, 0xBF), tail]
  else if b = 0xED then some [(0x80, 0x9F), tail]
  else if 0xE1 ≤ b ∧ b ≤ 0xEF then some [tail, tail]
  else if b = 0xF0 then some [(0x90, 0xBF), tail, tail]
  else if 0xF1 ≤ b ∧ b ≤ 0xF3 then some [tail, tail, tail]
  else if b = 0xF4 then some [(0x80, 0x8F), tail, tail]
  else none

def step : Owed → UInt8 → Option Owed
  | [], b => lead b
  | (lo, hi) :: owed, b => if lo ≤ b ∧ b ≤ hi then some owed else none

def run : Owed → List UInt8 → Option Owed
  | owed, [] => some owed
  | owed, b :: bs =>
      match step owed b with
      | some owed' => run owed' bs
      | none => none

/-- A well-formed byte string. -/
def Valid (bs : List UInt8) : Prop := run [] bs = some []

instance (bs : List UInt8) : Decidable (Valid bs) :=
  inferInstanceAs (Decidable (run [] bs = some []))

/-- A byte inside a character. Rust tests `(b as i8) < -0x40`. -/
def isContinuation (b : UInt8) : Bool := 0x80 ≤ b && b < 0xC0

theorem run_append (owed : Owed) (xs ys : List UInt8) :
    run owed (xs ++ ys) = (run owed xs).bind (run · ys) := by
  induction xs generalizing owed with
  | nil => rfl
  | cons b xs ih =>
      simp only [List.cons_append, run]
      cases step owed b with
      | none => rfl
      | some owed' => exact ih owed'

@[simp] theorem valid_nil : Valid [] := rfl

/-- Nothing is owed outside the continuation range. -/
def Owed.Tails (owed : Owed) : Prop := ∀ r ∈ owed, 0x80 ≤ r.1 ∧ r.2 < 0xC0

theorem lead_tails {b : UInt8} {owed : Owed} (h : lead b = some owed) :
    owed.Tails := by
  unfold lead at h
  split_ifs at h <;> cases h <;> simp [Owed.Tails, tail]

theorem step_tails {owed owed' : Owed} {b : UInt8} (hw : owed.Tails)
    (h : step owed b = some owed') : owed'.Tails := by
  cases owed with
  | nil => exact lead_tails h
  | cons r owed =>
      simp only [step, Option.ite_none_right_eq_some, Option.some.injEq] at h
      obtain ⟨-, rfl⟩ := h
      exact fun r' hr' => hw r' (by simp [hr'])

theorem run_tails {owed owed' : Owed} {bs : List UInt8} (hw : owed.Tails)
    (h : run owed bs = some owed') : owed'.Tails := by
  induction bs generalizing owed with
  | nil =>
      cases h
      exact hw
  | cons b bs ih =>
      simp only [run] at h
      cases hs : step owed b with
      | none => simp [hs] at h
      | some o =>
          rw [hs] at h
          exact ih (step_tails hw hs) h

/-- A byte that is not a continuation byte is accepted only between
characters. -/
theorem owed_eq_nil {owed owed' : Owed} {b : UInt8} (hw : owed.Tails)
    (hb : isContinuation b = false) (h : step owed b = some owed') :
    owed = [] := by
  cases owed with
  | nil => rfl
  | cons r owed =>
      obtain ⟨h1, h2⟩ := hw r (by simp)
      simp only [step, Option.ite_none_right_eq_some] at h
      obtain ⟨⟨hlo, hhi⟩, -⟩ := h
      simp only [isContinuation, UInt8.le_iff_toNat_le, UInt8.lt_iff_toNat_lt,
        Bool.and_eq_false_iff, decide_eq_false_iff_not] at *
      omega

/-- **A well-formed prefix can be cut off.** -/
theorem valid_append {xs ys : List UInt8} (hx : Valid xs) :
    Valid (xs ++ ys) ↔ Valid ys := by
  rw [Valid, run_append, show run [] xs = some [] from hx]
  rfl

/-- **A well-formed string can be cut before any character.** -/
theorem valid_split {xs ys : List UInt8} {b : UInt8}
    (h : Valid (xs ++ b :: ys)) (hb : isContinuation b = false) :
    Valid xs ∧ Valid (b :: ys) := by
  have hxs : Valid xs := by
    rw [Valid, run_append] at h
    cases hr : run [] xs with
    | none => simp [hr] at h
    | some owed =>
        rw [hr] at h
        simp only [Option.bind_some, run] at h
        have hw : owed.Tails := run_tails (by simp [Owed.Tails]) hr
        cases hs : step owed b with
        | none => simp [hs] at h
        | some owed' => rw [Valid, hr, owed_eq_nil hw hb hs]
  exact ⟨hxs, (valid_append hxs).mp h⟩

/-- The first byte of a well-formed string starts a character. -/
theorem valid_head {b : UInt8} {bs : List UInt8} (h : Valid (b :: bs)) :
    isContinuation b = false := by
  simp only [Valid, run, step] at h
  cases hl : lead b with
  | none => simp [hl] at h
  | some owed =>
      unfold lead at hl
      simp only [isContinuation, UInt8.le_iff_toNat_le, UInt8.lt_iff_toNat_lt,
        ← UInt8.toNat_inj, Bool.and_eq_false_iff, decide_eq_false_iff_not] at *
      split_ifs at hl <;> simp_all <;> omega

theorem lead_ascii {b : UInt8} (h : b < 0x80) : lead b = some [] := if_pos h

theorem ascii_not_continuation {b : UInt8} (h : b < 0x80) :
    isContinuation b = false := by
  simp only [isContinuation, UInt8.le_iff_toNat_le, UInt8.lt_iff_toNat_lt,
    Bool.and_eq_false_iff, decide_eq_false_iff_not] at *
  omega

theorem valid_cons_ascii {b : UInt8} {bs : List UInt8} (h : b < 0x80) :
    Valid (b :: bs) ↔ Valid bs := by
  simp only [Valid, run, step, lead_ascii h]

/-- ASCII is well formed. -/
theorem valid_of_ascii {bs : List UInt8} (h : ∀ b ∈ bs, b < 0x80) : Valid bs := by
  induction bs with
  | nil => rfl
  | cons b bs ih =>
      rw [valid_cons_ascii (h b (by simp))]
      exact ih (fun c hc => h c (by simp [hc]))

/-- Cutting at an ASCII byte leaves well-formed strings on both sides. -/
theorem valid_cut {xs ys : List UInt8} {b : UInt8} (hb : b < 0x80) :
    Valid (xs ++ b :: ys) ↔ Valid xs ∧ Valid ys := by
  constructor
  · intro h
    obtain ⟨hx, hy⟩ := valid_split h (ascii_not_continuation hb)
    exact ⟨hx, (valid_cons_ascii hb).mp hy⟩
  · rintro ⟨hx, hy⟩
    exact (valid_append hx).mpr ((valid_cons_ascii hb).mpr hy)

end Rust.Utf8
