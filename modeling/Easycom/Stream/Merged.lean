import Easycom.Stream.Lines

/-!
# Stream — Merged

Lines whose terminators get lost on the way. Frames are written one after
the other, each with a terminator of its own; where a terminator does not
arrive, a frame and the next one are one line (`lines_arrived`). A reader of
lines that reads a merged line as one of its frames, or not at all, reads a
part of what was written, and all the frames that arrive alone
(`merged_lines`).
-/

namespace Stream

variable {α β F : Type}

/-- A frame, and whether its terminator arrives. -/
structure Transmitted (F : Type) where
  frame : F
  ended : Bool

/-- The stream that arrives. -/
def arrived (line : F → List α) (stop : F → α) (xs : List (Transmitted F)) : List α :=
  xs.flatMap fun x => line x.frame ++ if x.ended then [stop x.frame] else []

/-- The frames of each line that arrives, with those of `g` in front. -/
def groups : List F → List (Transmitted F) → List (List F)
  | _, [] => []
  | g, x :: xs =>
      if x.ended then (g ++ [x.frame]) :: groups [] xs else groups (g ++ [x.frame]) xs

/-- The frames that arrive on a line of their own; `start` says that the
line before is ended. -/
def alone : Bool → List (Transmitted F) → List F
  | _, [] => []
  | start, x :: xs => (if start && x.ended then [x.frame] else []) ++ alone x.ended xs

variable {term : α → Bool} {line : F → List α} {stop : F → α} {read : List α → Option β}
  {out : F → β} {P : F → Prop}

/-- What a line of the frames `g` is read as. -/
structure ReadsFrames (line : F → List α) (read : List α → Option β) (out : F → β)
    (P : F → Prop) : Prop where
  one : ∀ f, P f → read (line f) = some (out f)
  merged : ∀ g, (∀ f ∈ g, P f) → g ≠ [] → ∀ c, read (g.flatMap line) = some c → ∃ f ∈ g, c = out f

theorem open_merged (hopen : ∀ f, Open term (line f)) (g : List F) :
    Open term (g.flatMap line) := by
  intro a ha
  obtain ⟨f, -, hf⟩ := List.mem_flatMap.mp ha
  exact hopen f a hf

example : groups [] [⟨1, false⟩, ⟨2, true⟩, ⟨3, true⟩, ⟨4, false⟩] = [[1, 2], [3]] := rfl

/-- The lines of a stream are the groups of its frames. -/
theorem lines_arrived (hopen : ∀ f, Open term (line f)) (hstop : ∀ f, term (stop f) = true)
    (xs : List (Transmitted F)) (g : List F) :
    (splitLines term (g.flatMap line ++ arrived line stop xs)).1
      = (groups g xs).map fun e => e.flatMap line := by
  induction xs generalizing g with
  | nil =>
      rw [arrived, List.flatMap_nil, List.append_nil, splitLines_open (open_merged hopen g)]
      rfl
  | cons x xs ih =>
      obtain ⟨f, ended⟩ := x
      have hgroup : g.flatMap line ++ line f = (g ++ [f]).flatMap line := by simp
      cases ended with
      | false =>
          have harrived : arrived line stop (⟨f, false⟩ :: xs) = line f ++ arrived line stop xs := by
            simp [arrived]
          rw [harrived, ← List.append_assoc, hgroup, ih]
          rfl
      | true =>
          have harrived : arrived line stop (⟨f, true⟩ :: xs)
              = line f ++ stop f :: arrived line stop xs := by
            simp [arrived]
          rw [harrived, ← List.append_assoc, hgroup,
            splitLines_line (open_merged hopen _) (hstop f)]
          exact congrArg _ (ih [])

/-- A line has a frame, and only frames that were written. -/
theorem mem_groups {xs : List (Transmitted F)} {g e : List F} (he : e ∈ groups g xs) :
    e ≠ [] ∧ ∀ f ∈ e, f ∈ g ++ xs.map Transmitted.frame := by
  induction xs generalizing g with
  | nil => cases he
  | cons x xs ih =>
      have hcons : g ++ (x :: xs).map Transmitted.frame
          = (g ++ [x.frame]) ++ xs.map Transmitted.frame := by simp
      rw [hcons]
      rw [groups] at he
      split at he
      · cases he with
        | head => exact ⟨by simp, fun f hf => List.mem_append_left _ hf⟩
        | tail _ he =>
            obtain ⟨hne, hmem⟩ := ih he
            exact ⟨hne, fun f hf => List.mem_append_right _ (hmem f hf)⟩
      · exact ih he

theorem ReadsFrames.sublist (h : ReadsFrames line read out P) {g : List F} (hg : ∀ f ∈ g, P f)
    (hne : g ≠ []) : (read (g.flatMap line)).toList.Sublist (g.map out) := by
  cases hc : read (g.flatMap line) with
  | none => exact List.nil_sublist _
  | some c =>
      obtain ⟨f, hf, rfl⟩ := h.merged g hg hne c hc
      exact List.singleton_sublist.mpr (List.mem_map_of_mem hf)

/-- Behind the frames `g` of an open line. -/
theorem merged_behind (h : ReadsFrames line read out P) {xs : List (Transmitted F)}
    (hxs : ∀ x ∈ xs, P x.frame) {g : List F} (hg : ∀ f ∈ g, P f) :
    ((alone g.isEmpty xs).map out).Sublist
        ((groups g xs).filterMap fun e => read (e.flatMap line)) ∧
      ((groups g xs).filterMap fun e => read (e.flatMap line)).Sublist
        ((g ++ xs.map Transmitted.frame).map out) := by
  induction xs generalizing g with
  | nil => exact ⟨List.Sublist.refl _, List.nil_sublist _⟩
  | cons x xs ih =>
      obtain ⟨f, ended⟩ := x
      have hxs' : ∀ x ∈ xs, P x.frame := fun x hx => hxs x (List.mem_cons_of_mem _ hx)
      have hgf : ∀ e ∈ g ++ [f], P e := by
        intro e he
        rcases List.mem_append.mp he with he | he
        · exact hg e he
        · exact List.mem_singleton.mp he ▸ hxs _ List.mem_cons_self
      cases ended with
      | false =>
          have hih := ih hxs' hgf
          rw [show (g ++ [f]).isEmpty = false by simp] at hih
          simpa [alone, groups] using hih
      | true =>
          obtain ⟨hlow, hhigh⟩ := ih hxs' (g := []) (by simp)
          have hcons : (groups g (⟨f, true⟩ :: xs)).filterMap (fun e => read (e.flatMap line))
              = (read ((g ++ [f]).flatMap line)).toList ++
                (groups [] xs).filterMap fun e => read (e.flatMap line) := by
            rw [groups, if_pos rfl, List.filterMap_cons]
            cases read ((g ++ [f]).flatMap line) <;> rfl
          rw [hcons]
          constructor
          · rw [alone, List.map_append]
            refine List.Sublist.append ?_ hlow
            cases g with
            | nil =>
                rw [List.nil_append, List.flatMap_singleton, h.one f (hgf f (by simp))]
                exact List.Sublist.refl _
            | cons e g => exact List.nil_sublist _
          · rw [show g ++ List.map Transmitted.frame (⟨f, true⟩ :: xs)
              = (g ++ [f]) ++ xs.map Transmitted.frame by simp, List.map_append]
            exact List.Sublist.append (h.sublist hgf (by simp)) hhigh

/-- What is read of a stream, line by line: each line is a group of frames,
and what is read of it, if anything, is one of them; what arrives alone is
read, and all is in the order in which it was written. -/
structure Merged (line : F → List α) (read : List α → Option β) (out : F → β)
    (xs : List (Transmitted F)) (results : List β) : Prop where
  lines : results = (groups [] xs).filterMap fun g => read (g.flatMap line)
  own : ∀ g ∈ groups [] xs, ∀ c, read (g.flatMap line) = some c → ∃ f ∈ g, c = out f
  of_alone : ((alone true xs).map out).Sublist results
  order : results.Sublist (xs.map fun x => out x.frame)

/-- **Merged lines.** All that is read is something written on the same
line, in its order, and what arrives alone is read. -/
theorem merged_lines (h : ReadsFrames line read out P) (hopen : ∀ f, Open term (line f))
    (hstop : ∀ f, term (stop f) = true) {xs : List (Transmitted F)}
    (hxs : ∀ x ∈ xs, P x.frame) :
    Merged line read out xs ((splitLines term (arrived line stop xs)).1.filterMap read) := by
  have hlines : (splitLines term (arrived line stop xs)).1.filterMap read
      = (groups [] xs).filterMap fun g => read (g.flatMap line) := by
    rw [← List.nil_append (arrived line stop xs), ← List.flatMap_nil (f := line),
      lines_arrived hopen hstop, List.filterMap_map]
    rfl
  obtain ⟨hlow, hhigh⟩ := merged_behind h hxs (g := []) (by simp)
  rw [List.nil_append, List.map_map] at hhigh
  rw [hlines]
  refine ⟨rfl, fun g hg c hc => ?_, hlow, hhigh⟩
  obtain ⟨hne, hmem⟩ := mem_groups hg
  refine h.merged g (fun f hf => ?_) hne c hc
  obtain ⟨x, hx, rfl⟩ := List.mem_map.mp (by simpa using hmem f hf)
  exact hxs x hx

end Stream
