import Mathlib.Data.List.Basic
import Mathlib.Data.List.Infix

/-!
# Stream — Lines

Lines of a byte stream, and the bounded buffer that collects them one
element at a time.

`splitLines` is what a stream says, with no buffer in sight: its
terminated lines and the unfinished tail. `step` is a buffer of capacity
`cap` that hands a line over at its terminator and, when a line outgrows
it, drops what it holds together with the element that did not fit. The
two agree on lines that fit (`run_line`, and `run_fits` on a whole stream);
on the others, what the buffer hands over is `residue`, the part of the
line after the last drop (`run_open`).
-/

namespace Stream

variable {α : Type} (term : α → Bool) (cap : Nat)

/-! ## Lines of a stream -/

/-- No element of `l` ends a line. -/
def Open (l : List α) : Prop := ∀ a ∈ l, term a = false

instance (l : List α) : Decidable (Open term l) :=
  List.decidableBAll (fun a => term a = false) l

/-- Lines of a stream read after the unfinished line `cur`: the terminated
ones, without their terminators, and the unfinished tail. -/
def splitFrom (cur : List α) : List α → List (List α) × List α
  | [] => ([], cur)
  | a :: as =>
      if term a then (cur :: (splitFrom [] as).1, (splitFrom [] as).2)
      else splitFrom (cur ++ [a]) as

/-- The terminated lines of a stream, and its unfinished tail. -/
def splitLines (s : List α) : List (List α) × List α := splitFrom term [] s

/-- Every maximal run without a terminator has at most `cap` elements. -/
def Fits (s : List α) : Prop :=
  (∀ l ∈ (splitLines term s).1, l.length ≤ cap) ∧ (splitLines term s).2.length ≤ cap

instance (s : List α) : Decidable (Fits term cap s) :=
  inferInstanceAs (Decidable ((∀ l ∈ (splitLines term s).1, l.length ≤ cap) ∧
    (splitLines term s).2.length ≤ cap))

variable {term} {cap}

theorem Open.append {l m : List α} (hl : Open term l) (hm : Open term m) :
    Open term (l ++ m) := by
  intro a ha
  rcases List.mem_append.mp ha with h | h
  · exact hl a h
  · exact hm a h

theorem Open.of_append {l m : List α} (h : Open term (l ++ m)) :
    Open term l ∧ Open term m :=
  ⟨fun a ha => h a (by simp [ha]), fun a ha => h a (by simp [ha])⟩

theorem open_nil : Open term ([] : List α) := by simp [Open]

theorem open_cons {a : α} {l : List α} :
    Open term (a :: l) ↔ term a = false ∧ Open term l := by simp [Open]

theorem splitFrom_open {cur s : List α} (hs : Open term s) :
    splitFrom term cur s = ([], cur ++ s) := by
  induction s generalizing cur with
  | nil => simp [splitFrom]
  | cons a s ih =>
      obtain ⟨ha, hs⟩ := open_cons.mp hs
      rw [splitFrom, if_neg (by simp [ha]), ih hs]
      simp

theorem splitFrom_line {cur l s : List α} {t : α} (hl : Open term l)
    (ht : term t = true) :
    splitFrom term cur (l ++ t :: s)
      = ((cur ++ l) :: (splitLines term s).1, (splitLines term s).2) := by
  induction l generalizing cur with
  | nil => simp [splitFrom, ht, splitLines]
  | cons a l ih =>
      obtain ⟨ha, hl⟩ := open_cons.mp hl
      rw [List.cons_append, splitFrom, if_neg (by simp [ha]), ih hl]
      simp

/-- A stream without a terminator is all tail. -/
theorem splitLines_open {s : List α} (hs : Open term s) :
    splitLines term s = ([], s) := by
  rw [splitLines, splitFrom_open hs, List.nil_append]

/-- A stream starts with its first line. -/
theorem splitLines_line {l s : List α} {t : α} (hl : Open term l)
    (ht : term t = true) :
    splitLines term (l ++ t :: s)
      = (l :: (splitLines term s).1, (splitLines term s).2) := by
  rw [splitLines, splitFrom_line hl ht, List.nil_append]

/-- An element behind the open `u` ends the first line of a stream, or is
one of its elements. -/
theorem line_split {u l v s : List α} {a t : α} (hu : Open term u) (hl : Open term l)
    (ht : term t = true) (h : u ++ a :: v = l ++ t :: s) :
    (term a = true ∧ u = l ∧ a = t ∧ v = s) ∨
      (term a = false ∧ ∃ l', l = u ++ a :: l' ∧ v = l' ++ t :: s) := by
  induction u generalizing l with
  | nil =>
      cases l with
      | nil =>
          obtain ⟨rfl, rfl⟩ := List.cons.inj h
          exact .inl ⟨ht, rfl, rfl, rfl⟩
      | cons b l =>
          obtain ⟨rfl, rfl⟩ := List.cons.inj h
          exact .inr ⟨(open_cons.mp hl).1, l, rfl, rfl⟩
  | cons c u ih =>
      obtain ⟨hc, hu⟩ := open_cons.mp hu
      cases l with
      | nil =>
          obtain ⟨rfl, -⟩ := List.cons.inj h
          rw [ht] at hc
          cases hc
      | cons b l =>
          obtain ⟨rfl, hrest⟩ := List.cons.inj h
          rcases ih hu (open_cons.mp hl).2 hrest with ⟨ha, rfl, rfl, rfl⟩ | ⟨ha, l', rfl, rfl⟩
          · exact .inl ⟨ha, rfl, rfl, rfl⟩
          · exact .inr ⟨ha, l', rfl, rfl⟩

/-- A stream is open, or an open line with its terminator and a stream. -/
theorem open_or_line (s : List α) :
    Open term s ∨
      ∃ l t rest, s = l ++ t :: rest ∧ Open term l ∧ term t = true := by
  induction s with
  | nil => exact .inl open_nil
  | cons a s ih =>
      cases ha : term a with
      | true => exact .inr ⟨[], a, s, rfl, open_nil, ha⟩
      | false =>
          rcases ih with hs | ⟨l, t, rest, rfl, hl, ht⟩
          · exact .inl (open_cons.mpr ⟨ha, hs⟩)
          · exact .inr ⟨a :: l, t, rest, rfl, open_cons.mpr ⟨ha, hl⟩, ht⟩

/-- **Induction line by line**: over an open stream, and over a line with
its terminator in front of a stream. -/
@[elab_as_elim] theorem line_induction {motive : List α → Prop} (term : α → Bool)
    (nil_line : ∀ s, Open term s → motive s)
    (cons_line : ∀ l t rest, Open term l → term t = true → motive rest →
      motive (l ++ t :: rest)) (s : List α) : motive s := by
  induction hn : s.length using Nat.strongRecOn generalizing s with
  | ind n ih =>
      rcases @open_or_line _ term s with hs | ⟨l, t, rest, rfl, hl, ht⟩
      · exact nil_line s hs
      · refine cons_line l t rest hl ht (ih rest.length ?_ rest rfl)
        rw [← hn, List.length_append, List.length_cons]
        omega

theorem fits_line {l s : List α} {t : α} (hl : Open term l)
    (ht : term t = true) :
    Fits term cap (l ++ t :: s) ↔ l.length ≤ cap ∧ Fits term cap s := by
  simp [Fits, splitLines_line hl ht, and_assoc]

theorem fits_open {s : List α} (hs : Open term s) :
    Fits term cap s ↔ s.length ≤ cap := by simp [Fits, splitLines_open hs]

/-! ## The bounded buffer -/

/-- What the buffer reports for one element. -/
inductive Event (α : Type) where
  | quiet
  | line (l : List α)
  | overflow
  deriving DecidableEq, Repr

variable (term cap)

/-- One element: the report, and the unfinished line after it. -/
def step (l : List α) (a : α) : Event α × List α :=
  if term a then (.line l, [])
  else if l.length < cap then (.quiet, l ++ [a])
  else (.overflow, [])

/-- A stream: a report for each element, and the unfinished line. -/
def run (l : List α) : List α → List (Event α) × List α
  | [] => ([], l)
  | a :: as =>
      ((step term cap l a).1 :: (run (step term cap l a).2 as).1,
        (run (step term cap l a).2 as).2)

/-- What is left of an open line: the elements after the last overflow,
one overflow for every `cap + 1` elements. -/
def residue (l : List α) : List α := l.drop (l.length / (cap + 1) * (cap + 1))

/-- What a buffer without a bound would report: silence inside a line, and
the line at its terminator. -/
def reports (cur : List α) : List α → List (Event α)
  | [] => []
  | a :: as =>
      if term a then .line cur :: reports [] as
      else .quiet :: reports (cur ++ [a]) as

variable {term cap}

theorem step_line {l : List α} {t : α} (ht : term t = true) :
    step term cap l t = (.line l, []) := if_pos ht

theorem step_quiet {l : List α} {a : α} (ha : term a = false)
    (hl : l.length < cap) : step term cap l a = (.quiet, l ++ [a]) := by
  rw [step, if_neg (by simp [ha]), if_pos hl]

theorem step_overflow {l : List α} {a : α} (ha : term a = false)
    (hl : cap ≤ l.length) : step term cap l a = (.overflow, []) := by
  rw [step, if_neg (by simp [ha]), if_neg (by omega)]

theorem run_append (l s t : List α) :
    run term cap l (s ++ t)
      = ((run term cap l s).1 ++ (run term cap (run term cap l s).2 t).1,
        (run term cap (run term cap l s).2 t).2) := by
  induction s generalizing l with
  | nil => simp [run]
  | cons a s ih => simp [run, ih]

theorem run_singleton (l : List α) (a : α) :
    run term cap l [a] = ([(step term cap l a).1], (step term cap l a).2) := rfl

theorem run_length (l s : List α) : (run term cap l s).1.length = s.length := by
  induction s generalizing l with
  | nil => rfl
  | cons a s ih => simp [run, ih]

/-- An open stream that fits is collected silently. -/
theorem run_quiet {l s : List α} (hs : Open term s)
    (hle : l.length + s.length ≤ cap) :
    run term cap l s = (List.replicate s.length .quiet, l ++ s) := by
  induction s generalizing l with
  | nil => simp [run]
  | cons a s ih =>
      obtain ⟨ha, hs⟩ := open_cons.mp hs
      simp only [List.length_cons] at hle
      rw [run, step_quiet ha (by omega),
        ih hs (by simp only [List.length_append, List.length_singleton]; omega)]
      simp [List.replicate_succ]

/-- **A line that fits is handed over at its terminator**, nothing before. -/
theorem run_line {l s : List α} {t : α} (hs : Open term s)
    (ht : term t = true) (hle : l.length + s.length ≤ cap) :
    run term cap l (s ++ [t])
      = (List.replicate s.length .quiet ++ [.line (l ++ s)], []) := by
  rw [run_append, run_quiet hs hle, run_singleton, step_line ht]

/-- **A stream of lines that fit is handed over line by line.** Each line
comes with its own terminator. -/
theorem run_lines {ι : Type} {xs : List ι} {line : ι → List α} {stop : ι → α}
    (hxs : ∀ x ∈ xs, Open term (line x) ∧ term (stop x) = true ∧ (line x).length ≤ cap) :
    run term cap [] (xs.flatMap fun x => line x ++ [stop x])
      = (xs.flatMap fun x => List.replicate (line x).length .quiet ++ [.line (line x)], []) := by
  induction xs with
  | nil => rfl
  | cons x xs ih =>
      obtain ⟨hopen, hterm, hle⟩ := hxs x (by simp)
      rw [List.flatMap_cons, run_append, run_line hopen hterm (by simpa using hle),
        ih fun y hy => hxs y (by simp [hy])]
      rfl

@[simp] theorem residue_length (l : List α) :
    (residue cap l).length = l.length % (cap + 1) := by
  rw [residue, List.length_drop]
  have := Nat.div_add_mod l.length (cap + 1)
  rw [Nat.mul_comm] at this
  omega

theorem residue_of_le {l : List α} (h : l.length ≤ cap) : residue cap l = l := by
  rw [residue, Nat.div_eq_of_lt (by omega)]
  simp

/-- One more element: kept if there is room after it, else all is gone. -/
theorem residue_snoc (l : List α) (a : α) :
    residue cap (l ++ [a])
      = if (residue cap l).length < cap then residue cap l ++ [a] else [] := by
  have hdm := Nat.div_add_mod l.length (cap + 1)
  have hlt : l.length % (cap + 1) < cap + 1 := Nat.mod_lt _ (by omega)
  rw [Nat.mul_comm] at hdm
  rw [residue_length]
  split
  · rename_i h
    have hdiv : (l.length + 1) / (cap + 1) = l.length / (cap + 1) :=
      Nat.div_eq_of_lt_le (by omega) (by rw [Nat.succ_mul]; omega)
    rw [residue, List.length_append, List.length_singleton, hdiv,
      List.drop_append_of_le_length (Nat.div_mul_le_self _ _)]
    rfl
  · rename_i h
    apply List.eq_nil_of_length_eq_zero
    have hmul : l.length + 1 = (l.length / (cap + 1) + 1) * (cap + 1) := by
      rw [Nat.succ_mul]
      omega
    rw [residue_length, List.length_append, List.length_singleton, hmul,
      Nat.mul_mod_left]

/-- **What an open line leaves in the buffer is its residue.** -/
theorem run_open {l : List α} (hl : Open term l) :
    (run term cap [] l).2 = residue cap l := by
  induction l using List.reverseRecOn with
  | nil => simp [run, residue]
  | append_singleton l a ih =>
      obtain ⟨hl, ha⟩ := hl.of_append
      rw [run_append, run_singleton, ih hl, residue_snoc]
      simp only [step, ha a (by simp), Bool.false_eq_true, if_false]
      split <;> rfl

/-- A line of any length: what is left of it is reported at its end. -/
theorem run_open_line {l : List α} {a : α} (hl : Open term l) (ha : term a = true) :
    run term cap [] (l ++ [a])
      = ((run term cap [] l).1 ++ [.line (residue cap l)], []) := by
  rw [run_append, run_singleton, run_open hl, step_line ha]

/-- **An open line is silent but for its overflows**, one for every
`cap + 1` elements of it and of the unfinished line before it. -/
theorem run_open_overflows {β : Type} {f : Event α → Option β} {x : β}
    (hquiet : f .quiet = none) (hover : f .overflow = some x) {l s : List α}
    (hs : Open term s) (hl : l.length ≤ cap) :
    (run term cap l s).1.filterMap f
      = List.replicate ((l.length + s.length) / (cap + 1)) x := by
  induction s generalizing l with
  | nil =>
      rw [List.length_nil, Nat.add_zero, Nat.div_eq_of_lt (by omega)]
      rfl
  | cons a s ih =>
      obtain ⟨ha, hs⟩ := open_cons.mp hs
      rw [run]
      by_cases hlt : l.length < cap
      · have hlen : (l ++ [a]).length + s.length = l.length + (a :: s).length := by
          simp only [List.length_append, List.length_cons, List.length_nil]
          omega
        rw [step_quiet ha hlt, List.filterMap_cons_none hquiet, ih hs (by simpa [Nat.succ_le_iff] using hlt), hlen]
      · -- the element that does not fit starts the count anew
        have hlen : l.length + (a :: s).length = ([] : List α).length + s.length + (cap + 1) := by
          simp only [List.length_cons, List.length_nil]
          omega
        rw [step_overflow ha (by omega), List.filterMap_cons_some hover, ih hs (by simp), hlen,
          Nat.add_div_right _ (by omega), List.replicate_succ]

/-- **What a stream leaves in the buffer is the residue of its tail.** -/
theorem run_tail (s : List α) :
    (run term cap [] s).2 = residue cap (splitLines term s).2 := by
  induction s using line_induction term with
  | nil_line s hs => rw [run_open hs, splitLines_open hs]
  | cons_line l t rest hl ht ih =>
      rw [run_append, splitLines_line hl ht]
      show (run term cap (step term cap _ t).2 rest).2 = _
      rw [step_line ht, ih]

theorem reports_open {cur s : List α} (hs : Open term s) :
    reports term cur s = List.replicate s.length .quiet := by
  induction s generalizing cur with
  | nil => rfl
  | cons a s ih =>
      obtain ⟨ha, hs⟩ := open_cons.mp hs
      rw [reports, if_neg (by simp [ha]), ih hs, List.length_cons, List.replicate_succ]

theorem reports_line {cur l s : List α} {t : α} (hl : Open term l)
    (ht : term t = true) :
    reports term cur (l ++ t :: s)
      = List.replicate l.length .quiet ++ .line (cur ++ l) :: reports term [] s := by
  induction l generalizing cur with
  | nil => simp [reports, ht]
  | cons a l ih =>
      obtain ⟨ha, hl⟩ := open_cons.mp hl
      rw [List.cons_append, reports, if_neg (by simp [ha]), ih hl]
      simp [List.replicate_succ]

/-- **On a stream whose lines fit, the bound is never noticed.** -/
theorem run_fits {s : List α} (hs : Fits term cap s) :
    run term cap [] s = (reports term [] s, (splitLines term s).2) := by
  induction s using line_induction term with
  | nil_line s hopen =>
      have hle := (fits_open hopen).mp hs
      rw [run_quiet hopen (by simpa using hle), reports_open hopen, splitLines_open hopen]
      rfl
  | cons_line l t rest hl ht ih =>
      obtain ⟨hle, hrest⟩ := (fits_line hl ht).mp hs
      have hline : run term cap [] (l ++ [t])
          = (List.replicate l.length .quiet ++ [.line l], []) :=
        run_line hl ht (by simpa using hle)
      rw [reports_line hl ht, splitLines_line hl ht, List.append_cons, run_append, hline,
        ih hrest]
      simp

/-- A run never leaves more than the capacity behind. -/
theorem run_length_le (s : List α) : (run term cap [] s).2.length ≤ cap := by
  rw [run_tail, residue_length]
  exact Nat.le_of_lt_succ (Nat.mod_lt _ (by omega))

/-- No line is handed over inside an open line. -/
theorem run_open_events {l s : List α} (hs : Open term s) :
    ∀ e ∈ (run term cap l s).1, e = .quiet ∨ e = .overflow := by
  induction s generalizing l with
  | nil => simp [run]
  | cons a s ih =>
      obtain ⟨ha, hs⟩ := open_cons.mp hs
      intro e he
      rcases List.mem_cons.mp he with rfl | he
      · rw [step, if_neg (by simp [ha])]
        split
        · exact .inl rfl
        · exact .inr rfl
      · exact ih hs e he

/-- **What a run reports of the lines of a stream**, where only lines are
reported: of each line what is left of it. -/
theorem filterMap_run {β : Type} {f : Event α → Option β} (hquiet : f .quiet = none)
    (hover : f .overflow = none) (s : List α) :
    (run term cap [] s).1.filterMap f
      = (splitLines term s).1.filterMap fun l => f (.line (residue cap l)) := by
  have hopen : ∀ l, Open term l → (run term cap [] l).1.filterMap f = [] := by
    intro l hl
    rw [List.filterMap_eq_nil_iff]
    intro e he
    rcases run_open_events hl e he with rfl | rfl
    · exact hquiet
    · exact hover
  induction s using line_induction term with
  | nil_line s hs =>
      rw [hopen s hs, splitLines_open hs]
      rfl
  | cons_line l t rest hl ht ih =>
      rw [splitLines_line hl ht, List.append_cons, run_append, run_open_line hl ht,
        List.filterMap_append, List.filterMap_append, hopen l hl, ih, List.nil_append]
      cases h : f (.line (residue cap l)) <;> simp [h]

/-- The same where overflows are reported too. -/
theorem filterMap_run_overflow {β : Type} {f : Event α → Option β} {x : β}
    (hquiet : f .quiet = none) (hover : f .overflow = some x) (s : List α) :
    (run term cap [] s).1.filterMap f
      = ((splitLines term s).1.flatMap fun l =>
          List.replicate (l.length / (cap + 1)) x ++ (f (.line (residue cap l))).toList) ++
        List.replicate ((splitLines term s).2.length / (cap + 1)) x := by
  have hopen : ∀ l, Open term l →
      (run term cap [] l).1.filterMap f = List.replicate (l.length / (cap + 1)) x := by
    intro l hl
    rw [run_open_overflows hquiet hover hl (by simp), List.length_nil, Nat.zero_add]
  induction s using line_induction term with
  | nil_line s hs =>
      rw [hopen s hs, splitLines_open hs]
      rfl
  | cons_line l t rest hl ht ih =>
      rw [splitLines_line hl ht, List.append_cons, run_append, run_open_line hl ht,
        List.filterMap_append, List.filterMap_append, hopen l hl, ih, List.flatMap_cons]
      cases h : f (.line (residue cap l)) <;> simp [h]

/-- Terminators in front of a stream end empty lines. -/
theorem splitLines_blank {ts : List α} (hts : ∀ t ∈ ts, term t = true) (s : List α) :
    splitLines term (ts ++ s)
      = (List.replicate ts.length [] ++ (splitLines term s).1, (splitLines term s).2) := by
  induction ts with
  | nil => rfl
  | cons t ts ih =>
      have hline := splitLines_line (s := ts ++ s) (open_nil : Open term []) (hts t (by simp))
      rw [List.nil_append] at hline
      rw [List.cons_append, hline, ih fun a ha => hts a (by simp [ha])]
      rfl

end Stream
