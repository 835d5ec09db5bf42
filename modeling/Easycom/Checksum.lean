import Easycom.Decode
import Easycom.Wire

/-!
# Easycom — Checksum

The `*XX` suffix: two hexadecimal digits that spell the XOR of what
stands before the star. `hexByte` reads the digits; the encoder writes
what it reads (`hexByte_suffix`), and `decode` asks it of every frame in
which two bytes follow a star (`splitChecksum_marked`).
-/

namespace Easycom

open Rust

/-- The value of a hexadecimal digit of either case. -/
def hexValue (b : UInt8) : Option Nat :=
  if isDigit b then some (b.toNat - 48)
  else if 97 ≤ b.toNat ∧ b.toNat ≤ 102 then some (b.toNat - 87)
  else if 65 ≤ b.toNat ∧ b.toNat ≤ 70 then some (b.toNat - 55)
  else none

/-- The byte two hexadecimal digits spell. -/
def hexByte (h l : UInt8) : Option UInt8 := do
  let hi ← hexValue h
  let lo ← hexValue l
  return UInt8.ofNat (16 * hi + lo)

/-- A frame that is its payload, a star, and the payload's checksum. -/
inductive Checksummed : List UInt8 → Prop where
  | mk {payload : List UInt8} {h l : UInt8}
      (hsum : hexByte h l = some (xorChecksum payload)) :
      Checksummed (payload ++ [byte '*', h, l])

theorem hexValue_lt {b : UInt8} {v : Nat} (h : hexValue b = some v) : v < 16 := by
  unfold hexValue at h
  split_ifs at h with hd ha hA <;> cases h
  · have := isDigit_iff.mp hd
    omega
  · omega
  · omega

theorem parseHexNibble_eq (b : UInt8) :
    parseHexNibble b = .ok ((hexValue b).map UInt8.ofNat) := by
  have hall : ∀ n < 256, parseHexNibble (UInt8.ofNat n)
      = .ok ((hexValue (UInt8.ofNat n)).map UInt8.ofNat) := by decide +kernel
  simpa using hall b.toNat b.toNat_lt

theorem nibbles_eq {hi lo : Nat} (hhi : hi < 16) (hlo : lo < 16) :
    (UInt8.ofNat hi <<< 4) ||| UInt8.ofNat lo = UInt8.ofNat (16 * hi + lo) := by
  have hall : ∀ hi < 16, ∀ lo < 16,
      (UInt8.ofNat hi <<< 4) ||| UInt8.ofNat lo = UInt8.ofNat (16 * hi + lo) := by
    decide +kernel
  exact hall hi hhi lo hlo

theorem hexByte_eq_none {h l : UInt8} :
    hexByte h l = none ↔ hexValue h = none ∨ hexValue l = none := by
  rw [hexByte]
  cases hexValue h <;> cases hexValue l <;> simp

/-- **The encoder's suffix is the text of its checksum.** -/
theorem hexByte_suffix (v : UInt8) :
    hexByte (hexDigits.getD (v >>> 4).toNat 0)
      (hexDigits.getD (v &&& 0x0F).toNat 0) = some v := by
  have hdigit : ∀ n < 16, hexValue (hexDigits.getD n 0) = some n := by decide
  have hhi := toNat_shiftRight_four v
  have hlo := toNat_and_fifteen v
  have hlt := v.toNat_lt
  rw [hexByte, hdigit _ (by omega), hdigit _ (by omega), hhi, hlo]
  simp only [Option.bind_eq_bind, Option.bind_some, Nat.div_add_mod]
  simp

/-- The suffix is a star and two digits of the table, which spell it. -/
theorem checksumSuffix_table (v : UInt8) :
    ∃ i j, i < 16 ∧ j < 16 ∧
      checksumSuffix v = [byte '*', hexDigits.getD i 0, hexDigits.getD j 0] ∧
      hexByte (hexDigits.getD i 0) (hexDigits.getD j 0) = some v := by
  have hlt := v.toNat_lt
  refine ⟨_, _, ?_, ?_, rfl, hexByte_suffix v⟩
  · rw [toNat_shiftRight_four]
    omega
  · rw [toNat_and_fifteen]
    omega

/-! ## Where `decode` looks for it -/

/-- No star with two bytes behind it. -/
def Unmarked (f : List UInt8) : Prop :=
  ∀ a b, f = a ++ byte '*' :: b → b.length < 2

theorem unmarked_of_not_mem {f : List UInt8} (h : byte '*' ∉ f) : Unmarked f := by
  rintro a b rfl
  exact absurd (by simp) h

theorem unmarked_of_length {f : List UInt8} (h : f.length ≤ 2) : Unmarked f := by
  rintro a b rfl
  simp only [List.length_append, List.length_cons] at h
  omega

theorem unmarked_pair (h l : UInt8) : Unmarked [h, l] := unmarked_of_length (by simp)

theorem unmarked_cons {c : UInt8} {f : List UInt8} (hc : c ≠ byte '*')
    (h : Unmarked f) : Unmarked (c :: f) := by
  intro a b hab
  cases a with
  | nil => exact absurd (List.head_eq_of_cons_eq hab) hc
  | cons x a => exact h a b (List.tail_eq_of_cons_eq hab)

theorem unmarked_append {f g : List UInt8} (hf : byte '*' ∉ f) (hg : Unmarked g) :
    Unmarked (f ++ g) := by
  induction f with
  | nil => exact hg
  | cons c f ih =>
      simp only [List.mem_cons, not_or] at hf
      exact unmarked_cons (Ne.symm hf.1) (ih hf.2)

/-- The search finds the last star that has two bytes behind it. -/
theorem rposition_windows3 (f : List UInt8) :
    (∃ p h l t, f = p ++ byte '*' :: h :: l :: t ∧ Unmarked (h :: l :: t) ∧
      rposition (fun w => w.1 == byte '*') (windows3 f) = some p.length) ∨
    (Unmarked f ∧ rposition (fun w => w.1 == byte '*') (windows3 f) = none) := by
  fun_induction windows3 f with
  | case1 a b c f ih =>
      rcases ih with ⟨p, h, l, t, hf, hun, hpos⟩ | ⟨hun, hpos⟩
      · refine .inl ⟨a :: p, h, l, t, by rw [hf]; rfl, hun, ?_⟩
        rw [rposition, hpos]
        rfl
      · by_cases ha : a = byte '*'
        · subst ha
          exact .inl ⟨[], b, c, f, rfl, hun, by rw [rposition, hpos]; rfl⟩
        · refine .inr ⟨unmarked_cons ha hun, ?_⟩
          simp [rposition, hpos, ha]
  | case2 f hf =>
      refine .inr ⟨unmarked_of_length ?_, rfl⟩
      rcases f with _ | ⟨a, _ | ⟨b, _ | ⟨c, f⟩⟩⟩
      · simp
      · simp
      · simp
      · exact absurd rfl (hf a b c f)

theorem splitChecksum_unmarked {f : List UInt8} (h : Unmarked f) :
    splitChecksum f = .ok (.ok (f, none)) := by
  rcases rposition_windows3 f with ⟨p, hd, l, t, rfl, -, -⟩ | ⟨-, hpos⟩
  · have := h p _ rfl
    simp at this
  · rw [splitChecksum, hpos]
    rfl

/-- A frame has one last star with two bytes behind it. -/
theorem marked_inj {p p' t t' : List UInt8} {h h' l l' : UInt8}
    (hun : Unmarked (h :: l :: t)) (hun' : Unmarked (h' :: l' :: t'))
    (heq : p ++ byte '*' :: h :: l :: t = p' ++ byte '*' :: h' :: l' :: t') :
    p = p' ∧ h = h' ∧ l = l' ∧ t = t' := by
  -- were one star earlier than the other, the later one would lie in its tail
  rcases List.append_eq_append_iff.mp heq with ⟨a, rfl, hs⟩ | ⟨a, rfl, hs⟩
  · cases a with
    | nil => simpa using hs
    | cons x a =>
        simp only [List.cons_append, List.cons.injEq] at hs
        have := hun a _ hs.2
        simp at this
  · cases a with
    | nil => simpa using hs.symm
    | cons x a =>
        simp only [List.cons_append, List.cons.injEq] at hs
        have := hun' a _ hs.2
        simp at this

/-- Of a marked frame, only the digits and the payload matter. -/
theorem checksummed_marked {p t : List UInt8} {h l : UInt8} (hun : Unmarked (h :: l :: t)) :
    Checksummed (p ++ byte '*' :: h :: l :: t) ↔
      t = [] ∧ hexByte h l = some (xorChecksum p) := by
  constructor
  · intro hcs
    generalize hf : p ++ byte '*' :: h :: l :: t = f at hcs
    cases hcs with
    | mk hsum =>
        obtain ⟨rfl, rfl, rfl, rfl⟩ := marked_inj hun (unmarked_pair _ _) hf
        exact ⟨rfl, hsum⟩
  · rintro ⟨rfl, hsum⟩
    exact .mk hsum

theorem not_checksummed_unmarked {f : List UInt8} (hun : Unmarked f) : ¬ Checksummed f := by
  intro hcs
  cases hcs with
  | mk =>
      have := hun _ _ rfl
      simp at this

/-- **A marked frame is split at its last star**, if the two bytes behind
the star are hexadecimal digits; what follows them is not looked at. -/
theorem splitChecksum_marked {p t : List UInt8} {h l : UInt8}
    (hun : Unmarked (h :: l :: t)) :
    splitChecksum (p ++ byte '*' :: h :: l :: t) = .ok (match hexByte h l with
      | some v => .ok (p, some v)
      | none => .error .invalidUtf8) := by
  rcases rposition_windows3 (p ++ byte '*' :: h :: l :: t) with
    ⟨p', h', l', t', hf, hun', hpos⟩ | ⟨hno, -⟩
  · obtain ⟨rfl, rfl, rfl, rfl⟩ := marked_inj hun hun' hf
    have hslice : slice (p ++ byte '*' :: h :: l :: t) (p.length + 1) (p.length + 3)
        = .ok [h, l] := by
      rw [slice_ok (by omega) (by simp)]
      simp [List.take_append, List.drop_append]
    have h0 : index [h, l] 0 = .ok h := rfl
    have h1 : index [h, l] 1 = .ok l := rfl
    rw [splitChecksum, hpos]
    simp only [hslice, ok_bind, sliceTo_append, parseHexNibble_eq, h0, h1,
      List.length_cons, List.length_nil, if_true, hexByte]
    cases hh : hexValue h with
    | none => rfl
    | some hi =>
        cases hl : hexValue l with
        | none => rfl
        | some lo =>
            have hv := nibbles_eq (hexValue_lt hh) (hexValue_lt hl)
            simp only [Option.map_some, pure_eq, hv]
            rfl
  · have := hno p _ rfl
    simp at this

end Easycom
