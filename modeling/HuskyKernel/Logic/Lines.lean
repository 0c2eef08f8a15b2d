import Mathlib.Data.List.Basic

/-!
# Logic/Lines — a text as terminated lines and what is left

A text over any alphabet is cut at a separator into the pieces that end in one, `terminated`, and
the piece behind the last, `unfinished`.  `induction` is the proof rule a line-by-line loop calls
for.
-/

namespace Lines

variable {α : Type*} [DecidableEq α] {sep : α} {l t : List α}

/-- The pieces that end in a separator. -/
def terminated (sep : α) (t : List α) : List (List α) := (t.splitOn sep).dropLast

/-- The piece behind the last separator. -/
def unfinished (sep : α) (t : List α) : List α := (t.splitOn sep).getLastD []

theorem terminated_of_notMem (h : sep ∉ t) : terminated sep t = [] := by
  rw [terminated, List.splitOn_eq_singleton h]
  rfl

theorem unfinished_of_notMem (h : sep ∉ t) : unfinished sep t = t := by
  rw [unfinished, List.splitOn_eq_singleton h]
  rfl

theorem terminated_append_cons (h : sep ∉ l) :
    terminated sep (l ++ sep :: t) = l :: terminated sep t := by
  rw [terminated, List.splitOn_append_cons_self_of_not_mem h,
    List.dropLast_cons_of_ne_nil (List.splitOn_ne_nil sep t), terminated]

theorem unfinished_append_cons (h : sep ∉ l) :
    unfinished sep (l ++ sep :: t) = unfinished sep t := by
  rw [unfinished, List.splitOn_append_cons_self_of_not_mem h, unfinished]
  cases hs : t.splitOn sep with
  | nil => exact absurd hs (List.splitOn_ne_nil sep t)
  | cons a as => rfl

/-- **Line-by-line induction.** -/
theorem induction (sep : α) {P : List α → Prop} (last : ∀ t, sep ∉ t → P t)
    (line : ∀ l t, sep ∉ l → P t → P (l ++ sep :: t)) (t : List α) : P t := by
  by_cases h : sep ∈ t
  · obtain ⟨l, t', ht, hl⟩ := List.eq_append_cons_of_mem h
    have : t'.length < t.length := by
      rw [ht, List.length_append, List.length_cons]
      omega
    rw [ht]
    exact line l t' hl (induction sep last line t')
  · exact last t h
termination_by t.length

/-- The pieces, put together. -/
theorem splitOn_eq (sep : α) (t : List α) :
    t.splitOn sep = terminated sep t ++ [unfinished sep t] := by
  induction t using induction sep with
  | last t h =>
    rw [terminated_of_notMem h, unfinished_of_notMem h, List.splitOn_eq_singleton h,
      List.nil_append]
  | line l t h ih =>
    rw [terminated_append_cons h, unfinished_append_cons h,
      List.splitOn_append_cons_self_of_not_mem h, ih, List.cons_append]

theorem unfinished_subset (sep : α) (t : List α) : unfinished sep t ⊆ t := by
  induction t using induction sep with
  | last t h => rw [unfinished_of_notMem h]; exact List.Subset.refl t
  | line l t h ih =>
    rw [unfinished_append_cons h]
    exact List.Subset.trans ih
      (List.Subset.trans (List.subset_cons_self _ _) (List.subset_append_right _ _))

end Lines
