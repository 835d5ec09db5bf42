import Mathlib.Data.Sum.Basic
import Mathlib.Order.Basic
import Easycom.Rust.Checked

/-!
# Rust — Loop

`loop { .. }`: a body that either goes round again with new locals or
leaves with a result. It has no bound of its own, so it is run for a
number of iterations, `none` meaning that it is still running.

`Halts` is the same for a pure step function, without the number: the
relation an abstract model of a loop is reasoned about with, one rewriting
rule for a step that goes on (`halts_inl`) and one for a step that leaves
(`halts_inr`). `loop_refines` carries a step-by-step refinement over to
the whole loop.
-/

namespace Rust

variable {σ ρ τ ω : Type}

/-- `loop { body }`, for at most `fuel` iterations. -/
def loop (body : σ → Exec (σ ⊕ ρ)) : Nat → σ → Exec (Option ρ)
  | 0, _ => .ok none
  | fuel + 1, s => do
      match ← body s with
      | .inl s => loop body fuel s
      | .inr r => return some r

/-- Running longer changes no result. -/
theorem loop_mono {body : σ → Exec (σ ⊕ ρ)} {fuel : Nat} {s : σ} {r : ρ}
    (h : loop body fuel s = .ok (some r)) (k : Nat) :
    loop body (fuel + k) s = .ok (some r) := by
  induction fuel generalizing s with
  | zero => cases h
  | succ fuel ih =>
      rw [Nat.add_right_comm, loop]
      rw [loop] at h
      cases hs : body s with
      | error p =>
          rw [hs] at h
          cases h
      | ok next =>
          rw [hs] at h
          cases next with
          | inl s' => exact ih h
          | inr r' => exact h

/-- The pure counterpart of `loop`. -/
def iterate (step : τ → τ ⊕ ω) : Nat → τ → Option ω
  | 0, _ => none
  | fuel + 1, a =>
      match step a with
      | .inl a => iterate step fuel a
      | .inr r => some r

/-- From `a` the steps end with the result `r`. -/
def Halts (step : τ → τ ⊕ ω) (a : τ) (r : ω) : Prop := ∃ fuel, iterate step fuel a = some r

variable {step : τ → τ ⊕ ω} {a a' : τ} {r r' : ω}

theorem halts_inl (h : step a = .inl a') : Halts step a r ↔ Halts step a' r := by
  constructor
  · intro hr
    obtain ⟨fuel, hfuel⟩ := hr
    cases fuel with
    | zero => cases hfuel
    | succ fuel =>
        rw [iterate, h] at hfuel
        exact ⟨fuel, hfuel⟩
  · intro hr
    obtain ⟨fuel, hfuel⟩ := hr
    exact ⟨fuel + 1, by rw [iterate, h]; exact hfuel⟩

theorem halts_inr (h : step a = .inr r') : Halts step a r ↔ r = r' := by
  constructor
  · intro hr
    obtain ⟨fuel, hfuel⟩ := hr
    cases fuel with
    | zero => cases hfuel
    | succ fuel =>
        rw [iterate, h] at hfuel
        exact (Option.some.inj hfuel).symm
  · intro hr
    exact ⟨1, by rw [iterate, h, hr]⟩

/-- An invariant of the steps holds of the state a result is given in. -/
theorem Halts.invariant {P : τ → Prop} {Q : ω → Prop} (h : Halts step a r) (ha : P a)
    (hinl : ∀ b b', P b → step b = .inl b' → P b')
    (hinr : ∀ b s, P b → step b = .inr s → Q s) : Q r := by
  obtain ⟨fuel, hfuel⟩ := h
  induction fuel generalizing a with
  | zero => cases hfuel
  | succ fuel ih =>
      rw [iterate] at hfuel
      cases hs : step a with
      | inl a' =>
          rw [hs] at hfuel
          exact ih (hinl a a' ha hs) hfuel
      | inr s =>
          rw [hs] at hfuel
          cases hfuel
          exact hinr a _ ha hs

/-- **A body that refines a step function makes a loop that refines its
iteration.** -/
theorem loop_refines {body : σ → Exec (σ ⊕ ρ)} {R : σ → τ → Prop} {Q : ρ → ω → Prop}
    (hbody : ∀ s a, R s a → Returns (body s) fun out => Sum.LiftRel R Q out (step a))
    (fuel : Nat) {s : σ} (h : R s a) :
    Returns (loop body fuel s) fun out => Option.Rel Q out (iterate step fuel a) := by
  induction fuel generalizing s a with
  | zero => exact ⟨none, rfl, .none⟩
  | succ fuel ih =>
      rw [loop, iterate]
      refine (hbody s a h).bind fun out hout => ?_
      generalize step a = next at hout
      cases hout with
      | inl h' => exact ih h'
      | inr h' => exact ⟨_, rfl, .some h'⟩

end Rust
