import Easycom.Rust.Checked

/-!
# Rust — Buffer

Writers that fill a caller's buffer from the front. `filled buf w` is the
buffer `buf` with `w` written over its first bytes; a writer at position
`w.length` turns `filled buf w` into `filled buf (w ++ v)`, whatever the
buffer held, and everything past the written part is the buffer's own.
-/

namespace Rust

variable {α : Type}

/-- `buf` with `w` written over its front. -/
def filled (buf w : List α) : List α := w ++ buf.drop w.length

@[simp] theorem filled_nil (buf : List α) : filled buf [] = buf := rfl

theorem filled_length {buf w : List α} (h : w.length ≤ buf.length) :
    (filled buf w).length = buf.length := by
  simp only [filled, List.length_append, List.length_drop]
  omega

@[simp] theorem take_filled (buf w : List α) :
    (filled buf w).take w.length = w := by simp [filled]

@[simp] theorem drop_filled (buf w : List α) :
    (filled buf w).drop w.length = buf.drop w.length := by simp [filled]

theorem take_filled_append (buf v w : List α) :
    (filled buf (v ++ w)).take v.length = v := by simp [filled]

theorem take_filled_concat (buf w : List α) (x : α) :
    (filled buf (w ++ [x])).take (w.length + 1) = w ++ [x] := by
  rw [← List.length_singleton (a := x), ← List.length_append, take_filled]

/-- A longer write hides a shorter one. -/
theorem filled_filled {buf v w : List α} (h : v.length ≤ w.length) :
    filled (filled buf v) w = filled buf w := by
  simp only [filled, List.drop_append, List.drop_drop]
  rw [List.drop_of_length_le h, List.nil_append,
    Nat.add_sub_of_le h]

/-- A buffer that already starts with `w` is itself filled with `w`. -/
theorem filled_of_take {buf w : List α} (h : buf.take w.length = w) :
    filled buf w = buf := by
  conv => rhs; rw [← List.take_append_drop w.length buf, h]
  rfl

/-- One byte written at the end of the filled part. -/
theorem store_filled {buf w : List α} {pos : Nat} (x : α)
    (hpos : pos = w.length) (h : w.length < buf.length) :
    store (filled buf w) pos x = .ok (filled buf (w ++ [x])) := by
  subst hpos
  rw [store_ok (by rw [filled_length (by omega)]; exact h)]
  congr 1
  obtain ⟨y, hy⟩ : ∃ y, buf.drop w.length = y :: buf.drop (w.length + 1) :=
    ⟨_, List.drop_eq_getElem_cons h⟩
  rw [filled, hy, List.set_append_right _ _ (Nat.le_refl _)]
  simp [filled]

/-- `copy_from_slice` at the end of the filled part. -/
theorem copyFromSlice_filled {buf w src : List α} {i j : Nat}
    (hi : i = w.length) (hj : j = w.length + src.length)
    (h : w.length + src.length ≤ buf.length) :
    copyFromSlice (filled buf w) i j src = .ok (filled buf (w ++ src)) := by
  subst hi hj
  have hlen : (filled buf w).length = buf.length := filled_length (by omega)
  rw [copyFromSlice, if_pos ⟨by omega, by omega⟩, if_pos (by omega), take_filled]
  simp only [filled, List.drop_append, List.drop_drop, List.length_append]
  rw [List.drop_of_length_le (by omega), Nat.add_sub_cancel_left]
  rfl

/-- What was written, read back, -/
theorem sliceTo_filled {buf w : List α} (h : w.length ≤ buf.length) :
    sliceTo (filled buf w) w.length = .ok w := by
  rw [sliceTo_ok (by rw [filled_length h]; exact h), take_filled]

theorem sliceTo_filled_concat {buf w : List α} {x : α} (h : w.length + 1 ≤ buf.length) :
    sliceTo (filled buf (w ++ [x])) (w.length + 1) = .ok (w ++ [x]) := by
  have hlen : (w ++ [x]).length = w.length + 1 := by simp
  rw [← hlen]
  exact sliceTo_filled (by omega)

/-- and the first part of it. -/
theorem sliceTo_filled_append {buf v w : List α}
    (h : (v ++ w).length ≤ buf.length) :
    sliceTo (filled buf (v ++ w)) v.length = .ok v := by
  simp only [List.length_append] at h
  rw [sliceTo_ok
    (by rw [filled_length (by rw [List.length_append]; exact h)]; omega),
    take_filled_append]

end Rust
