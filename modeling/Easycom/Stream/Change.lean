import Mathlib.Data.List.Basic
import Mathlib.Logic.Function.Basic

/-!
# Stream — Change

A stream with one element replaced, and what a fold makes of it. A fold
whose step is injective in both arguments never gives two such streams one
value (`Changed.foldl_ne`): as a checksum, it detects every single error.
-/

namespace Stream

variable {α β : Type} {R : α → α → Prop}

/-- `m` is `l` with one element replaced by another that `R` relates to it. -/
inductive Changed (R : α → α → Prop) : List α → List α → Prop where
  | here {a b : α} {l : List α} (h : R a b) : Changed R (a :: l) (b :: l)
  | there {a : α} {l m : List α} (h : Changed R l m) : Changed R (a :: l) (a :: m)

theorem not_changed_nil {m : List α} : ¬ Changed R [] m := by
  intro h
  cases h

theorem changed_cons {a : α} {l m : List α} :
    Changed R (a :: l) m ↔
      (∃ b, R a b ∧ m = b :: l) ∨ ∃ l', Changed R l l' ∧ m = a :: l' := by
  constructor
  · intro h
    cases h with
    | here h => exact .inl ⟨_, h, rfl⟩
    | there h => exact .inr ⟨_, h, rfl⟩
  · rintro (⟨b, h, rfl⟩ | ⟨l', h, rfl⟩)
    · exact .here h
    · exact .there h

/-- The replaced element is in the first part or in the second. -/
theorem changed_append {l k m : List α} :
    Changed R (l ++ k) m ↔
      (∃ l', Changed R l l' ∧ m = l' ++ k) ∨ ∃ k', Changed R k k' ∧ m = l ++ k' := by
  induction l generalizing m with
  | nil => simp [not_changed_nil]
  | cons a l ih =>
      rw [List.cons_append, changed_cons]
      simp only [ih, changed_cons]
      constructor
      · rintro (⟨b, h, rfl⟩ | ⟨_, ⟨l', h, rfl⟩ | ⟨k', h, rfl⟩, rfl⟩)
        · exact .inl ⟨b :: l, .inl ⟨b, h, rfl⟩, rfl⟩
        · exact .inl ⟨a :: l', .inr ⟨l', h, rfl⟩, rfl⟩
        · exact .inr ⟨k', h, rfl⟩
      · rintro (⟨_, ⟨b, h, rfl⟩ | ⟨l', h, rfl⟩, rfl⟩ | ⟨k', h, rfl⟩)
        · exact .inl ⟨b, h, rfl⟩
        · exact .inr ⟨l' ++ k, .inl ⟨l', h, rfl⟩, rfl⟩
        · exact .inr ⟨l ++ k', .inr ⟨k', h, rfl⟩, rfl⟩

/-- Two values before the same elements stay apart. -/
theorem foldl_injective {f : β → α → β} (hf : ∀ a, Function.Injective fun x => f x a)
    (l : List α) : Function.Injective fun x => l.foldl f x := by
  induction l with
  | nil => exact fun x y h => h
  | cons a l ih =>
      intro x y h
      exact hf a (ih h)

/-- **A fold injective in both arguments detects every change.** -/
theorem Changed.foldl_ne {f : β → α → β} (hf : ∀ a, Function.Injective fun x => f x a)
    (hR : ∀ x a b, R a b → f x a ≠ f x b) {l m : List α} (h : Changed R l m) (x : β) :
    l.foldl f x ≠ m.foldl f x := by
  induction h generalizing x with
  | here h => exact fun heq => hR x _ _ h (foldl_injective hf _ heq)
  | there h ih => exact ih _

end Stream
