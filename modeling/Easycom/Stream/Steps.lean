import Mathlib.Data.List.Basic

/-!
# Stream — Steps

Runs of a step relation, with the number of steps taken. `countdown` is
the rule for a system that comes to an end: an invariant that knows how
many steps are left bounds every run, whatever steps are taken.
-/

namespace Stream

variable {σ : Type} {step : σ → σ → Prop}

/-- A run of `k` steps. -/
inductive Steps (step : σ → σ → Prop) (a : σ) : Nat → σ → Prop where
  | start : Steps step a 0 a
  | next {k : Nat} {b c : σ} (h : Steps step a k b) (hstep : step b c) : Steps step a (k + 1) c

/-- What every step preserves, every run preserves. -/
theorem Steps.invariant {P : σ → Prop} (hstep : ∀ b c, P b → step b c → P c)
    {a b : σ} {k : Nat} (h : Steps step a k b) (ha : P a) : P b := by
  induction h with
  | start => exact ha
  | next _ hbc ih => exact hstep _ _ ih hbc

/-- **Counting down**: where every step leaves one step less to take, a
run of `k` steps leaves `k` less. -/
theorem Steps.countdown {P : Nat → σ → Prop}
    (hstep : ∀ n b c, P n b → step b c → ∃ m, n = m + 1 ∧ P m c)
    {a b : σ} {k n : Nat} (h : Steps step a k b) (ha : P n a) :
    ∃ m, n = k + m ∧ P m b := by
  induction h with
  | start => exact ⟨n, by omega, ha⟩
  | next _ hbc ih =>
      obtain ⟨m, hm, hb⟩ := ih
      obtain ⟨m', hm', hc⟩ := hstep m _ _ hb hbc
      exact ⟨m', by omega, hc⟩

end Stream
