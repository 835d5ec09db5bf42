import Mathlib.Data.List.Basic
import Mathlib.Data.List.Infix

/-!
# Rust — Checked

The operations of Rust's core library that can panic, as total functions
into `Exec`: slice indexing and assignment, slice expressions,
`copy_from_slice`, and the fixed-width arithmetic that overflows. A
program written over `Exec` says at every such step what happens on a bad
index, so "this program does not panic" is a statement about its value
(`∃ r, f x = .ok r`) and not about its well-typedness.

Slices are lists; `usize` positions are naturals (a slice's length never
exceeds `isize::MAX`, so position arithmetic does not wrap).
-/

namespace Rust

/-- The panics an expression of the modelled fragment can raise. -/
inductive Panic where
  | indexOutOfBounds
  | sliceOutOfRange
  | charBoundary
  | lengthMismatch
  | arithmeticOverflow
  deriving DecidableEq, Repr

/-- What evaluating a Rust expression gives: its value, or a panic. -/
abbrev Exec (α : Type) := Except Panic α

@[simp] theorem pure_eq {α : Type} (a : α) : (pure a : Exec α) = .ok a := rfl

@[simp] theorem ok_bind {α β : Type} (a : α) (f : α → Exec β) :
    ((Except.ok a : Exec α) >>= f) = f a := rfl

@[simp] theorem error_bind {α β : Type} (p : Panic) (f : α → Exec β) :
    ((Except.error p : Exec α) >>= f) = .error p := rfl

variable {α : Type}

/-- `x` evaluates without a panic, to a value that satisfies `P`. -/
abbrev Returns (x : Exec α) (P : α → Prop) : Prop := ∃ a, x = .ok a ∧ P a

theorem Returns.mono {x : Exec α} {P Q : α → Prop} (h : Returns x P)
    (hPQ : ∀ a, P a → Q a) : Returns x Q := by
  obtain ⟨a, ha, hP⟩ := h
  exact ⟨a, ha, hPQ a hP⟩

/-- The rule of sequence: the rest of a program may assume of a value what
the first part guarantees of it. -/
theorem Returns.bind {β : Type} {x : Exec α} {f : α → Exec β} {P : α → Prop}
    {Q : β → Prop} (hx : Returns x P) (hf : ∀ a, P a → Returns (f a) Q) :
    Returns (x >>= f) Q := by
  obtain ⟨a, rfl, ha⟩ := hx
  exact hf a ha

/-- What a program returns is what it is known to return. -/
theorem Returns.of_eq {x : Exec α} {P : α → Prop} {a : α} (h : Returns x P)
    (ha : x = .ok a) : P a := by
  obtain ⟨b, hb, hP⟩ := h
  cases hb.symm.trans ha
  exact hP

/-! ## Slices -/

/-- `xs[i]`. -/
def index (xs : List α) (i : Nat) : Exec α :=
  match xs[i]? with
  | some x => .ok x
  | none => .error .indexOutOfBounds

/-- `xs[i] = x`. -/
def store (xs : List α) (i : Nat) (x : α) : Exec (List α) :=
  if i < xs.length then .ok (xs.set i x) else .error .indexOutOfBounds

/-- `&xs[i..j]`. -/
def slice (xs : List α) (i j : Nat) : Exec (List α) :=
  if i ≤ j ∧ j ≤ xs.length then .ok ((xs.take j).drop i)
  else .error .sliceOutOfRange

/-- `&xs[..j]`. -/
def sliceTo (xs : List α) (j : Nat) : Exec (List α) :=
  if j ≤ xs.length then .ok (xs.take j) else .error .sliceOutOfRange

/-- `&xs[..=j]`. -/
def sliceToIncl (xs : List α) (j : Nat) : Exec (List α) :=
  sliceTo xs (j + 1)

/-- `xs[i..j].copy_from_slice(src)`. -/
def copyFromSlice (xs : List α) (i j : Nat) (src : List α) : Exec (List α) :=
  if i ≤ j ∧ j ≤ xs.length then
    if src.length = j - i then .ok (xs.take i ++ src ++ xs.drop j)
    else .error .lengthMismatch
  else .error .sliceOutOfRange

/-- `xs.iter().rposition(p)`: the position of the last element that
satisfies `p`. -/
def rposition (p : α → Bool) : List α → Option Nat
  | [] => none
  | x :: xs =>
      match rposition p xs with
      | some i => some (i + 1)
      | none => if p x then some 0 else none

/-- `xs.windows(3)`. A window is a triple, so `w[0]` is a projection and
cannot be out of range. -/
def windows3 : List α → List (α × α × α)
  | a :: b :: c :: xs => (a, b, c) :: windows3 (b :: c :: xs)
  | _ => []

theorem index_ok {xs : List α} {i : Nat} (h : i < xs.length) :
    index xs i = .ok xs[i] := by
  simp [index, List.getElem?_eq_getElem h]

theorem store_ok {xs : List α} {i : Nat} (h : i < xs.length) (x : α) :
    store xs i x = .ok (xs.set i x) := if_pos h

theorem slice_ok {xs : List α} {i j : Nat} (hij : i ≤ j)
    (hj : j ≤ xs.length) : slice xs i j = .ok ((xs.take j).drop i) :=
  if_pos ⟨hij, hj⟩

theorem sliceTo_ok {xs : List α} {j : Nat} (h : j ≤ xs.length) :
    sliceTo xs j = .ok (xs.take j) := if_pos h

/-- Slicing off the first part of an append gives it back. -/
theorem sliceTo_append (xs ys : List α) :
    sliceTo (xs ++ ys) xs.length = .ok xs := by
  rw [sliceTo_ok (by simp), List.take_left]

theorem rposition_eq_none {p : α → Bool} {xs : List α} :
    rposition p xs = none ↔ ∀ x ∈ xs, p x = false := by
  induction xs with
  | nil => simp [rposition]
  | cons x xs ih =>
      cases h : rposition p xs with
      | none =>
          have hall := ih.mp h
          simpa [rposition, h] using fun _ => hall
      | some i =>
          have hex : ¬ ∀ y ∈ xs, p y = false := fun hall => by
            rw [ih.mpr hall] at h
            cases h
          simp only [rposition, h, reduceCtorEq, List.mem_cons, forall_eq_or_imp,
            false_iff, not_and]
          exact fun _ => hex

/-- The last hit splits the list: nothing after it satisfies `p`. -/
theorem rposition_eq_some {p : α → Bool} {xs : List α} {i : Nat} :
    rposition p xs = some i ↔
      ∃ l x r, xs = l ++ x :: r ∧ l.length = i ∧ p x = true
        ∧ ∀ y ∈ r, p y = false := by
  induction xs generalizing i with
  | nil => simp [rposition]
  | cons x xs ih =>
      simp only [rposition]
      constructor
      · intro h
        cases hxs : rposition p xs with
        | some k =>
            rw [hxs] at h
            cases h
            obtain ⟨l, y, r, rfl, rfl, hy, hr⟩ := ih.mp hxs
            exact ⟨x :: l, y, r, rfl, rfl, hy, hr⟩
        | none =>
            rw [hxs] at h
            by_cases hx : p x = true
            · simp only [hx, if_true, Option.some.injEq] at h
              exact ⟨[], x, xs, rfl, h, hx, rposition_eq_none.mp hxs⟩
            · simp [hx] at h
      · rintro ⟨l, y, r, hxs, rfl, hy, hr⟩
        cases l with
        | nil =>
            simp only [List.nil_append, List.cons.injEq] at hxs
            obtain ⟨rfl, rfl⟩ := hxs
            simp [rposition_eq_none.mpr hr, hy]
        | cons z l =>
            simp only [List.cons_append, List.cons.injEq] at hxs
            obtain ⟨rfl, rfl⟩ := hxs
            rw [ih.mpr ⟨l, y, r, rfl, rfl, hy, hr⟩]
            rfl

/-! ## Fixed-width arithmetic -/

/-- `a + b` on `u8`. -/
def addU8 (a b : UInt8) : Exec UInt8 :=
  if a.toNat + b.toNat < 256 then .ok (a + b) else .error .arithmeticOverflow

/-- `a - b` on `u8`. -/
def subU8 (a b : UInt8) : Exec UInt8 :=
  if b ≤ a then .ok (a - b) else .error .arithmeticOverflow

/-- `a + b` on `u16`. -/
def addU16 (a b : UInt16) : Exec UInt16 :=
  if a.toNat + b.toNat < 65536 then .ok (a + b) else .error .arithmeticOverflow

/-- `a * b` on `u16`. -/
def mulU16 (a b : UInt16) : Exec UInt16 :=
  if a.toNat * b.toNat < 65536 then .ok (a * b) else .error .arithmeticOverflow

theorem addU16_returns {a b : UInt16} (h : a.toNat + b.toNat < 65536) :
    Returns (addU16 a b) fun c => c.toNat = a.toNat + b.toNat := by
  have hval : (a + b).toNat = a.toNat + b.toNat := by
    rw [UInt16.toNat_add, Nat.mod_eq_of_lt h]
  exact ⟨a + b, if_pos h, hval⟩

theorem mulU16_returns {a b : UInt16} (h : a.toNat * b.toNat < 65536) :
    Returns (mulU16 a b) fun c => c.toNat = a.toNat * b.toNat := by
  have hval : (a * b).toNat = a.toNat * b.toNat := by
    rw [UInt16.toNat_mul, Nat.mod_eq_of_lt h]
  exact ⟨a * b, if_pos h, hval⟩

/-- `-a` on `i16`. -/
def negI16 (a : Int16) : Exec Int16 :=
  if a = Int16.minValue then .error .arithmeticOverflow else .ok (-a)

/-- `a.unsigned_abs()` on `i16`. -/
def unsignedAbsI16 (a : Int16) : UInt16 := UInt16.ofNat a.toInt.natAbs

/-- `a.unsigned_abs()` on `i32`. -/
def unsignedAbsI32 (a : Int32) : UInt32 := UInt32.ofNat a.toInt.natAbs

/-! ## Byte literals -/

/-- `b'c'` for an ASCII `c`. -/
def byte (c : Char) : UInt8 := c.toNat.toUInt8

/-- `b"s"` (and the bytes of the `str` literal `"s"`) for an ASCII `s`. -/
def bytes (s : String) : List UInt8 := s.toList.map byte

end Rust
