import Easycom.Stream.Lines

/-!
# Stream — Words

The words of a text: its maximal runs without a separator. `words` splits
at every separator and drops the empty pieces; `Words` says what that
gives, word by word (`words_iff`).
-/

namespace Stream

variable {α : Type} {sep : α → Bool}

/-- The non-empty pieces between separators. -/
def words (sep : α → Bool) (s : List α) : List (List α) :=
  (s.splitOnP sep).filter fun w => !w.isEmpty

/-- The text `s` consists of the words `ws` and of separators, at least one
between two words. -/
inductive Words (sep : α → Bool) : List α → List (List α) → Prop where
  | nil : Words sep [] []
  | skip {a : α} {s : List α} {ws : List (List α)} (ha : sep a = true) (h : Words sep s ws) :
      Words sep (a :: s) ws
  | last {w : List α} (hne : w ≠ []) (hw : Open sep w) : Words sep w [w]
  | word {w s : List α} {a : α} {ws : List (List α)} (hne : w ≠ []) (hw : Open sep w)
      (ha : sep a = true) (h : Words sep s ws) : Words sep (w ++ a :: s) (w :: ws)

theorem splitOnP_line {l s : List α} {a : α} (hl : Open sep l) (ha : sep a = true) :
    (l ++ a :: s).splitOnP sep = l :: s.splitOnP sep := by
  induction l with
  | nil => rw [List.nil_append, List.splitOnP_cons_eq_if_modifyHead, if_pos ha]
  | cons b l ih =>
      obtain ⟨hb, hl⟩ := open_cons.mp hl
      rw [List.cons_append, List.splitOnP_cons_eq_if_modifyHead, if_neg (by simp [hb]), ih hl]
      rfl

theorem splitOnP_open {s : List α} (hs : Open sep s) : s.splitOnP sep = [s] := by
  induction s with
  | nil => rfl
  | cons a s ih =>
      obtain ⟨ha, hs⟩ := open_cons.mp hs
      rw [List.splitOnP_cons_eq_if_modifyHead, if_neg (by simp [ha]), ih hs]
      rfl

theorem words_open {w : List α} (hw : Open sep w) : words sep w = if w = [] then [] else [w] := by
  rw [words, splitOnP_open hw]
  cases w <;> rfl

theorem words_line {w s : List α} {a : α} (hw : Open sep w) (ha : sep a = true) :
    words sep (w ++ a :: s) = (if w = [] then [] else [w]) ++ words sep s := by
  rw [words, splitOnP_line hw ha, words]
  cases w <;> rfl

/-- **The words of a text.** -/
theorem words_iff {s : List α} {ws : List (List α)} : words sep s = ws ↔ Words sep s ws := by
  constructor
  · intro h
    subst h
    induction s using line_induction sep with
    | nil_line s hs =>
        rw [words_open hs]
        split
        · subst s
          exact .nil
        · exact .last ‹_› hs
    | cons_line l a s hl ha ih =>
        rw [words_line hl ha]
        split
        · subst l
          exact .skip ha ih
        · exact .word ‹_› hl ha ih
  · intro h
    induction h with
    | nil => rfl
    | @skip a s ws ha _ ih =>
        have hline := words_line (s := s) (open_nil : Open sep []) ha
        rwa [List.nil_append, if_pos rfl, List.nil_append, ih] at hline
    | last hne hw => rw [words_open hw, if_neg hne]
    | word hne hw ha _ ih => rw [words_line hw ha, if_neg hne, ih, List.singleton_append]

end Stream
