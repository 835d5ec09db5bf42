import Easycom.Rust.Checked

/-!
# Rust — Program

A program by what it does to the world around it: it prints, it calls a
service, and it ends. A call may run forever, so a program is run with a
bound on each call (`Program.run`); `Program.eval` is the run on a service
that always returns.

The prints and the result of a program depend on the service through the
results of the calls alone (`Program.Makes`). So a program runs as it should
exactly where its calls do (`run_iff`), and two services on which the calls
of the program have the same results cannot be told apart by it.
-/

namespace Rust

variable {β γ κ ρ ω α σ τ : Type}

/-- Goes on with the value of a computation, if it has returned. -/
def andThen (x : Exec (Option β)) (f : β → Exec (Option γ)) : Exec (Option γ) := do
  match ← x with
  | none => return none
  | some b => f b

theorem andThen_eq_some {x : Exec (Option β)} {f : β → Exec (Option γ)} {out : γ} :
    andThen x f = .ok (some out) ↔ ∃ b, x = .ok (some b) ∧ f b = .ok (some out) := by
  rcases x with e | _ | b
  · simp [andThen]
  · simp [andThen]
  · simp [andThen]

/-- A program that prints `ω`, makes calls `κ` that return `ρ`, and ends
with `α`. -/
inductive Program (κ ρ ω α : Type) where
  | done (a : α)
  | print (o : ω) (rest : Program κ ρ ω α)
  | call (c : κ) (rest : ρ → Program κ ρ ω α)

namespace Program

/-- The prints, the result, and the service after a run; `none` if one of
the calls has not returned. -/
def run (call : σ → κ → Exec (Option (ρ × σ))) :
    Program κ ρ ω α → σ → Exec (Option (List ω × α × σ))
  | .done a, s => return some ([], a, s)
  | .print o rest, s => andThen (run call rest s) fun (os, a, s) => return some (o :: os, a, s)
  | .call c rest, s => andThen (call s c) fun (r, s) => run call (rest r) s

/-- The same on a service that returns. -/
def eval (serve : τ → κ → ρ × τ) : Program κ ρ ω α → τ → List ω × α × τ
  | .done a, x => ([], a, x)
  | .print o rest, x =>
      let (os, a, x) := eval serve rest x
      (o :: os, a, x)
  | .call c rest, x =>
      let (r, x) := serve x c
      eval serve (rest r) x

/-- The calls of that run, with their results. -/
def calls (serve : τ → κ → ρ × τ) : Program κ ρ ω α → τ → List (κ × ρ)
  | .done _, _ => []
  | .print _ rest, x => calls serve rest x
  | .call c rest, x =>
      let (r, x) := serve x c
      (c, r) :: calls serve (rest r) x

/-! ## The calls of a program -/

/-- With these results of its calls, the program prints `os` and ends. -/
inductive Makes : Program κ ρ ω α → List (κ × ρ) → List ω → α → Prop where
  | done (a : α) : Makes (.done a) [] [] a
  | print {o : ω} {rest : Program κ ρ ω α} {cs : List (κ × ρ)} {os : List ω} {a : α}
      (h : Makes rest cs os a) : Makes (.print o rest) cs (o :: os) a
  | call {c : κ} {rest : ρ → Program κ ρ ω α} {r : ρ} {cs : List (κ × ρ)} {os : List ω} {a : α}
      (h : Makes (rest r) cs os a) : Makes (.call c rest) ((c, r) :: cs) os a

@[simp] theorem makes_done {a b : α} {cs : List (κ × ρ)} {os : List ω} :
    (Program.done a).Makes cs os b ↔ cs = [] ∧ os = [] ∧ b = a := by
  constructor
  · intro h
    cases h
    exact ⟨rfl, rfl, rfl⟩
  · rintro ⟨rfl, rfl, rfl⟩
    exact .done _

@[simp] theorem makes_print {o : ω} {rest : Program κ ρ ω α} {a : α} {cs : List (κ × ρ)}
    {os : List ω} :
    (Program.print o rest).Makes cs os a ↔ ∃ os', os = o :: os' ∧ rest.Makes cs os' a := by
  constructor
  · intro h
    cases h with
    | print h => exact ⟨_, rfl, h⟩
  · rintro ⟨os', rfl, h⟩
    exact .print h

@[simp] theorem makes_call {c : κ} {rest : ρ → Program κ ρ ω α} {a : α} {cs : List (κ × ρ)}
    {os : List ω} :
    (Program.call c rest).Makes cs os a ↔
      ∃ r cs', cs = (c, r) :: cs' ∧ (rest r).Makes cs' os a := by
  constructor
  · intro h
    cases h with
    | call h => exact ⟨_, _, rfl, h⟩
  · rintro ⟨r, cs', rfl, h⟩
    exact .call h

theorem makes_eval (serve : τ → κ → ρ × τ) (p : Program κ ρ ω α) (x : τ) :
    p.Makes (p.calls serve x) (p.eval serve x).1 (p.eval serve x).2.1 := by
  induction p generalizing x with
  | done a => exact .done a
  | print o rest ih => exact .print (ih x)
  | call c rest ih => exact .call (ih _ _)

/-- Calls one after the other. -/
inductive Calls (returns : σ → κ → ρ → σ → Prop) : σ → List (κ × ρ) → σ → Prop where
  | nil (s : σ) : Calls returns s [] s
  | cons {s s' s'' : σ} {c : κ} {r : ρ} {cs : List (κ × ρ)} (h : returns s c r s')
      (rest : Calls returns s' cs s'') : Calls returns s ((c, r) :: cs) s''

/-! ## Runs with a bound -/

section Fuel

variable {call : Nat → σ → κ → Exec (Option (ρ × σ))}

theorem run_mono
    (hmono : ∀ {fuel s c out}, call fuel s c = .ok (some out) →
      ∀ k, call (fuel + k) s c = .ok (some out))
    {p : Program κ ρ ω α} {fuel : Nat} {s : σ} {out : List ω × α × σ}
    (h : p.run (call fuel) s = .ok (some out)) (k : Nat) :
    p.run (call (fuel + k)) s = .ok (some out) := by
  induction p generalizing s out with
  | done a => exact h
  | print o rest ih =>
      rw [run, andThen_eq_some] at h ⊢
      obtain ⟨next, hrest, hout⟩ := h
      exact ⟨next, ih hrest, hout⟩
  | call c rest ih =>
      rw [run, andThen_eq_some] at h ⊢
      obtain ⟨next, hcall, hrest⟩ := h
      exact ⟨next, hmono hcall k, ih _ hrest⟩

/-- **A program runs where its calls return**, and prints what their
results make it print. -/
theorem run_iff
    (hmono : ∀ {fuel s c out}, call fuel s c = .ok (some out) →
      ∀ k, call (fuel + k) s c = .ok (some out))
    {p : Program κ ρ ω α} {s s' : σ} {os : List ω} {a : α} :
    (∃ fuel, p.run (call fuel) s = .ok (some (os, a, s'))) ↔
      ∃ cs, p.Makes cs os a ∧
        Calls (fun s c r s' => ∃ fuel, call fuel s c = .ok (some (r, s'))) s cs s' := by
  constructor
  · intro h
    obtain ⟨fuel, h⟩ := h
    induction p generalizing s os with
    | done b =>
        cases h
        exact ⟨[], .done _, .nil _⟩
    | print o rest ih =>
        obtain ⟨next, hrest, hout⟩ := andThen_eq_some.mp h
        cases hout
        obtain ⟨cs, hmakes, hcalls⟩ := ih hrest
        exact ⟨cs, .print hmakes, hcalls⟩
    | call c rest ih =>
        obtain ⟨next, hcall, hrest⟩ := andThen_eq_some.mp h
        obtain ⟨cs, hmakes, hcalls⟩ := ih _ hrest
        exact ⟨(c, next.1) :: cs, .call hmakes, .cons ⟨fuel, hcall⟩ hcalls⟩
  · intro h
    obtain ⟨cs, hmakes, hcalls⟩ := h
    induction hmakes generalizing s with
    | done b =>
        cases hcalls
        exact ⟨0, rfl⟩
    | print _ ih =>
        obtain ⟨fuel, hrun⟩ := ih hcalls
        exact ⟨fuel, andThen_eq_some.mpr ⟨_, hrun, rfl⟩⟩
    | call _ ih =>
        cases hcalls with
        | cons hcall hrest =>
            obtain ⟨fuel, hcall⟩ := hcall
            obtain ⟨fuel', hrun⟩ := ih hrest
            -- enough for both
            refine ⟨fuel + fuel', andThen_eq_some.mpr ⟨_, hmono hcall fuel', ?_⟩⟩
            rw [Nat.add_comm]
            exact run_mono hmono hrun fuel

end Fuel

end Program

end Rust
