import Easycom.Rust.Buffer

/-!
# Rust — Writer

Writers into a caller's buffer of any size. With `w` written over the front
of `buf`, a computation `Adds` the text `v` if it writes `v` behind `w` when
there is room for it, and panics when there is not: it never returns with
part of its text. There is one rule for each way in which a writer is built
up (`adds_pure`, `adds_cons`, `adds_bind`), so that what a writer needs is
read off its text.
-/

namespace Rust

variable {α β γ : Type}

/-- With `w` over the front of `buf`, `x` writes `v` behind it and returns
`k` of the buffer, or panics if `v` does not fit. -/
def Adds (buf w v : List α) (k : List α → β) (x : Exec β) : Prop :=
  w.length ≤ buf.length →
    if (w ++ v).length ≤ buf.length then x = .ok (k (filled buf (w ++ v)))
    else ∃ p, x = .error p

variable {buf w u v : List α} {k : List α → β}

theorem adds_pure : Adds buf w [] k (.ok (k (filled buf w))) := by
  intro hw
  rw [List.append_nil, if_pos hw]

/-- One writer after the other. -/
theorem adds_bind {j : List α → γ} {x : Exec γ} {f : γ → Exec β} (hx : Adds buf w u j x)
    (hf : Adds buf (w ++ u) v k (f (j (filled buf (w ++ u))))) :
    Adds buf w (u ++ v) k (x >>= f) := by
  intro hw
  have hx := hx hw
  rw [← List.append_assoc]
  by_cases hu : (w ++ u).length ≤ buf.length
  · rw [if_pos hu] at hx
    rw [hx, ok_bind]
    exact hf hu
  · rw [if_neg hu] at hx
    obtain ⟨p, hp⟩ := hx
    have hlong : ¬ (w ++ u ++ v).length ≤ buf.length := by
      rw [List.length_append]
      omega
    rw [if_neg hlong, hp]
    exact ⟨p, rfl⟩

/-- A writer that is the last one. -/
theorem Adds.map {j : List α → γ} {x : Exec γ} {g : γ → β} (hx : Adds buf w v j x) :
    Adds buf w v (fun b => g (j b)) (x >>= fun a => .ok (g a)) := by
  have h := adds_bind (k := fun b => g (j b)) (v := []) (f := fun a => .ok (g a)) hx adds_pure
  rwa [List.append_nil] at h

theorem adds_store {a : α} {pos : Nat} (hpos : pos = w.length) :
    Adds buf w [a] (fun b => b) (store (filled buf w) pos a) := by
  intro hw
  rw [List.length_append, List.length_singleton]
  split
  · exact store_filled a hpos ‹_›
  · rw [store, if_neg (by rw [filled_length hw]; omega)]
    exact ⟨_, rfl⟩

/-- A byte, and then the rest of the text. -/
theorem adds_cons {a : α} {pos : Nat} {f : List α → Exec β} (hpos : pos = w.length)
    (hf : Adds buf (w ++ [a]) v k (f (filled buf (w ++ [a])))) :
    Adds buf w (a :: v) k (store (filled buf w) pos a >>= f) :=
  adds_bind (adds_store hpos) hf

theorem adds_copyFromSlice {src : List α} {i j : Nat} (hi : i = w.length)
    (hj : j = w.length + src.length) :
    Adds buf w src (fun b => b) (copyFromSlice (filled buf w) i j src) := by
  intro hw
  rw [List.length_append]
  split
  · exact copyFromSlice_filled hi hj ‹_›
  · rw [copyFromSlice, if_neg (by rw [filled_length hw]; omega)]
    exact ⟨_, rfl⟩

/-- A writer into a buffer with room for its text. -/
theorem Adds.returns {x : Exec β} (h : Adds buf [] v k x) (hroom : v.length ≤ buf.length) :
    x = .ok (k (filled buf v)) := by
  have hx := h (Nat.zero_le _)
  rwa [List.nil_append, if_pos hroom] at hx

/-- What a writer into a fresh buffer returns, and when it does. -/
theorem Adds.returns_iff {x : Exec β} (h : Adds buf [] v k x) (b : β) :
    x = .ok b ↔ v.length ≤ buf.length ∧ b = k (filled buf v) := by
  constructor
  · intro hb
    by_cases hroom : v.length ≤ buf.length
    · rw [h.returns hroom] at hb
      cases hb
      exact ⟨hroom, rfl⟩
    · have hx := h (Nat.zero_le _)
      rw [List.nil_append, if_neg hroom] at hx
      obtain ⟨p, hp⟩ := hx
      rw [hp] at hb
      cases hb
  · intro hb
    rw [hb.2]
    exact h.returns hb.1

end Rust
