import Mathlib.Data.List.Infix

/-! Text in lines, where a pair of two symbols ends a line. A text is split into its lines and what
follows the last end; what is written line by line is split into the same lines exactly when no line has
an end inside. -/

namespace Framing

variable {α : Type} {a b : α}

theorem singleton_suffix_iff {line : List α} : [a] <:+ line ↔ line.getLast? = some a := by
  rw [List.getLast?_eq_some_iff]
  exact ⟨fun ⟨ys, h⟩ => ⟨ys, h.symm⟩, fun ⟨ys, h⟩ => ⟨ys, h.symm⟩⟩

/-- A symbol completes an end exactly when it is the second one of a pair, and the first one is there. -/
theorem pair_infix_concat_iff {line : List α} {x : α} :
    [a, b] <:+: line ++ [x] ↔ (x = b ∧ line.getLast? = some a) ∨ [a, b] <:+: line := by
  rw [List.infix_concat_iff]
  refine or_congr_left ?_
  rw [← singleton_suffix_iff, List.suffix_concat_iff]
  constructor
  · rintro (h | ⟨t, ht, hsuffix⟩)
    · cases h
    · obtain ⟨rfl, hx⟩ := List.append_inj' (show [a] ++ [b] = t ++ [x] from ht) rfl
      cases hx
      exact ⟨rfl, hsuffix⟩
  · rintro ⟨rfl, hsuffix⟩
    exact Or.inr ⟨[a], rfl, hsuffix⟩

theorem pair_infix_append_iff {word : List α} (h : a ∉ word) (s : List α) :
    [a, b] <:+: word ++ s ↔ [a, b] <:+: s := by
  induction word with
  | nil => rfl
  | cons x word ih =>
      obtain ⟨hx, hword⟩ := not_or.mp (mt List.mem_cons.mpr h)
      rw [List.cons_append, List.infix_cons_iff, ih hword]
      refine or_iff_right fun hpre => ?_
      obtain ⟨heq, -⟩ := List.cons_prefix_cons.mp hpre
      exact hx heq

theorem not_pair_infix_of_not_mem {word : List α} (h : a ∉ word) : ¬[a, b] <:+: word :=
  fun hpair => h (hpair.subset List.mem_cons_self)

variable [DecidableEq α] (a b)

/-- Split a text that continues the line `line`. -/
def splitFrom : List α → List α → List (List α) × List α
  | line, [] => ([], line)
  | line, x :: s =>
      if x = b ∧ line.getLast? = some a then
        (line.dropLast :: (splitFrom [] s).1, (splitFrom [] s).2)
      else splitFrom (line ++ [x]) s

/-- The lines of a text, and what follows the last one. -/
def split (s : List α) : List (List α) × List α := splitFrom a b [] s

/-- Every line with its end. -/
def join (lines : List (List α)) : List α := lines.flatMap fun line => line ++ [a, b]

variable {a b}

/-- No line of a split text has an end inside. -/
theorem not_infix_of_mem_splitFrom {line s line' : List α} (h : ¬[a, b] <:+: line)
    (hmem : line' ∈ (splitFrom a b line s).1) : ¬[a, b] <:+: line' := by
  induction s generalizing line with
  | nil => cases hmem
  | cons x s ih =>
      rw [splitFrom] at hmem
      by_cases hend : x = b ∧ line.getLast? = some a
      · rw [if_pos hend] at hmem
        rcases List.mem_cons.mp hmem with rfl | hmem
        · exact fun hpair => h (hpair.trans (List.dropLast_prefix line).isInfix)
        · exact ih (by simp) hmem
      · rw [if_neg hend] at hmem
        exact ih (mt pair_infix_concat_iff.mp (not_or.mpr ⟨hend, h⟩)) hmem

theorem splitFrom_append (hab : a ≠ b) {line word : List α} (h : ¬[a, b] <:+: line ++ word)
    (s : List α) :
    splitFrom a b line (word ++ a :: b :: s) = ((line ++ word) :: (split a b s).1, (split a b s).2) := by
  induction word generalizing line with
  | nil =>
      rw [List.append_nil] at h ⊢
      have hfirst : ¬(a = b ∧ line.getLast? = some a) := fun hend => hab hend.1
      have hsecond : b = b ∧ (line ++ [a]).getLast? = some a := ⟨rfl, List.getLast?_concat⟩
      show splitFrom a b line (a :: b :: s) = _
      rw [splitFrom, if_neg hfirst, splitFrom, if_pos hsecond, List.dropLast_concat]
      rfl
  | cons x word ih =>
      have hassoc : line ++ x :: word = line ++ [x] ++ word := List.append_cons line x word
      rw [hassoc] at h ⊢
      have hx : ¬[a, b] <:+: line ++ [x] := fun hpair =>
        h (hpair.trans (List.prefix_append (line ++ [x]) word).isInfix)
      rw [List.cons_append, splitFrom, if_neg (fun hend => hx (pair_infix_concat_iff.mpr (Or.inl hend))),
        ih h]

/-- What is written line by line is split into the same lines, when none of them has an end inside. -/
theorem split_join (hab : a ≠ b) {lines : List (List α)} (h : ∀ line ∈ lines, ¬[a, b] <:+: line) :
    split a b (join a b lines) = (lines, []) := by
  induction lines with
  | nil => rfl
  | cons line lines ih =>
      have hline : ¬[a, b] <:+: [] ++ line := h line List.mem_cons_self
      have hrest := ih fun line' hmem => h line' (List.mem_cons_of_mem line hmem)
      have hjoin : join a b (line :: lines) = line ++ a :: b :: join a b lines := by
        simp [join]
      rw [hjoin, split, splitFrom_append hab hline, hrest, List.nil_append]

theorem split_join_iff (hab : a ≠ b) (lines : List (List α)) :
    split a b (join a b lines) = (lines, []) ↔ ∀ line ∈ lines, ¬[a, b] <:+: line := by
  refine ⟨fun h line hmem => ?_, split_join hab⟩
  have hsplit : line ∈ (splitFrom a b [] (join a b lines)).1 := by
    rw [split] at h
    rwa [h]
  exact not_infix_of_mem_splitFrom (by simp) hsplit

end Framing
