import HuskyKernel.Logic.Lines
import Mathlib.Data.List.GetD
import Mathlib.Order.Nat

/-!
# Logic/Page — a text laid out in lines and columns

A text over any alphabet, cut at a separator, as a page: `page` is what stands in a column of a
line, a blank where the line is shorter.  A character written on goes to the place right behind the
text, and nothing else of the page changes (`page_concat`).
-/

namespace Lines

variable {α : Type*} [DecidableEq α] {sep blank a : α} {t : List α} {h w r c : ℕ}

/-- What stands in column `c` of line `r`. -/
def page (sep blank : α) (t : List α) (r c : ℕ) : α := ((t.splitOn sep).getD r []).getD c blank

/-- The page has room for the text, and for one more character in each line. -/
structure Fits (sep : α) (h w : ℕ) (t : List α) : Prop where
  lines : (t.splitOn sep).length ≤ h
  columns : ∀ l ∈ t.splitOn sep, l.length < w

instance : Decidable (Fits sep h w t) :=
  decidable_of_iff ((t.splitOn sep).length ≤ h ∧ ∀ l ∈ t.splitOn sep, l.length < w)
    ⟨fun ht => ⟨ht.1, ht.2⟩, fun ht => ⟨ht.lines, ht.columns⟩⟩

/-! ## One character more -/

/-- A separator starts an empty line. -/
theorem splitOn_concat_sep (sep : α) (t : List α) :
    (t ++ [sep]).splitOn sep = t.splitOn sep ++ [[]] := by
  induction t using induction sep with
  | last t ht =>
    rw [List.splitOn_append_cons_self_of_not_mem ht, List.splitOn_eq_singleton ht]
    rfl
  | line l t hl ih =>
    rw [List.append_assoc, List.cons_append, List.splitOn_append_cons_self_of_not_mem hl, ih,
      List.splitOn_append_cons_self_of_not_mem hl, List.cons_append]

/-- Any other character goes to the end of the last line. -/
theorem splitOn_concat (ha : a ≠ sep) (t : List α) :
    (t ++ [a]).splitOn sep = terminated sep t ++ [unfinished sep t ++ [a]] := by
  induction t using induction sep with
  | last t ht =>
    have hnot : sep ∉ t ++ [a] := fun hmem => (List.mem_append.mp hmem).elim ht fun hsep =>
      ha (List.mem_singleton.mp hsep).symm
    rw [terminated_of_notMem ht, unfinished_of_notMem ht, List.splitOn_eq_singleton hnot,
      List.nil_append]
  | line l t hl ih =>
    rw [List.append_assoc, List.cons_append, List.splitOn_append_cons_self_of_not_mem hl, ih,
      terminated_append_cons hl, unfinished_append_cons hl, List.cons_append]

theorem unfinished_concat_sep (sep : α) (t : List α) : unfinished sep (t ++ [sep]) = [] := by
  rw [unfinished, splitOn_concat_sep, List.getLastD_concat]

theorem unfinished_concat (ha : a ≠ sep) (t : List α) :
    unfinished sep (t ++ [a]) = unfinished sep t ++ [a] := by
  rw [unfinished, splitOn_concat ha, List.getLastD_concat]

/-- There are as many finished lines as separators — induction on the lines. -/
theorem length_terminated (sep : α) (t : List α) : (terminated sep t).length = t.count sep := by
  induction t using induction sep with
  | last t ht => rw [terminated_of_notMem ht, List.count_eq_zero_of_not_mem ht, List.length_nil]
  | line l t hl ih =>
    rw [terminated_append_cons hl, List.length_cons, ih, List.count_append, List.count_cons_self,
      List.count_eq_zero_of_not_mem hl, Nat.zero_add]

/-! ## The page -/

/-- A separator shows nothing. -/
theorem page_concat_sep (sep blank : α) (t : List α) :
    page sep blank (t ++ [sep]) = page sep blank t := by
  funext r c
  rw [page, page, splitOn_concat_sep]
  rcases Nat.lt_or_ge r (t.splitOn sep).length with hr | hr
  · rw [List.getD_append _ _ _ _ hr]
  · have hblank : ([[]] : List (List α)).getD (r - (t.splitOn sep).length) [] = [] := by
      cases r - (t.splitOn sep).length <;> rfl
    rw [List.getD_append_right _ _ _ _ hr, hblank, List.getD_eq_default _ _ hr]

/-- **A character written on goes right behind the text.** -/
theorem page_concat (ha : a ≠ sep) (blank : α) (t : List α) (r c : ℕ) :
    page sep blank (t ++ [a]) r c =
      if r = t.count sep ∧ c = (unfinished sep t).length then a else page sep blank t r c := by
  rw [page, page, splitOn_concat ha, splitOn_eq, ← length_terminated]
  rcases Nat.lt_trichotomy r (terminated sep t).length with hr | rfl | hr
  · rw [if_neg fun h => hr.ne h.1, List.getD_append _ _ _ _ hr, List.getD_append _ _ _ _ hr]
  · rw [List.getD_append_right _ _ _ _ le_rfl, List.getD_append_right _ _ _ _ le_rfl,
      Nat.sub_self, List.getD_cons_zero, List.getD_cons_zero]
    rcases Nat.lt_trichotomy c (unfinished sep t).length with hc | rfl | hc
    · rw [if_neg fun h => hc.ne h.2, List.getD_append _ _ _ _ hc]
    · rw [if_pos ⟨rfl, rfl⟩, List.getD_append_right _ _ _ _ le_rfl, Nat.sub_self,
        List.getD_cons_zero]
    · rw [if_neg fun h => hc.ne' h.2, List.getD_eq_default _ _ hc.le, List.getD_eq_default]
      rw [List.length_append]
      exact hc
  · have hlen (l : List α) : (terminated sep t ++ [l]).length ≤ r := by
      rw [List.length_append]
      exact hr
    rw [if_neg fun h => hr.ne' h.1, List.getD_eq_default _ _ (hlen _),
      List.getD_eq_default _ _ (hlen _)]

/-- Behind the text there is nothing. -/
theorem page_end (sep blank : α) (t : List α) :
    page sep blank t (t.count sep) (unfinished sep t).length = blank := by
  rw [page, splitOn_eq, ← length_terminated, List.getD_append_right _ _ _ _ le_rfl, Nat.sub_self,
    List.getD_cons_zero, List.getD_eq_default _ _ le_rfl]

theorem page_nil (sep blank : α) (r c : ℕ) : page sep blank [] r c = blank := by
  rw [page, List.splitOn_eq_singleton List.not_mem_nil]
  cases r <;> rfl

namespace Fits

/-- The place behind the text is on the page. -/
theorem place (ht : Fits sep h w t) : t.count sep < h ∧ (unfinished sep t).length < w := by
  obtain ⟨hlines, hcolumns⟩ := ht
  rw [splitOn_eq] at hlines hcolumns
  rw [List.length_append, List.length_singleton, length_terminated] at hlines
  exact ⟨hlines, hcolumns _ (List.mem_append_right _ (List.mem_singleton_self _))⟩

/-- What fits fits without its last character. -/
theorem of_concat (ht : Fits sep h w (t ++ [a])) : Fits sep h w t := by
  obtain ⟨hlines, hcolumns⟩ := ht
  by_cases ha : a = sep
  · rw [ha, splitOn_concat_sep] at hlines hcolumns
    rw [List.length_append] at hlines
    exact ⟨(Nat.le_add_right _ _).trans hlines, fun l hl => hcolumns l (List.mem_append_left _ hl)⟩
  · rw [splitOn_concat ha, List.length_append] at hlines
    rw [splitOn_concat ha] at hcolumns
    refine ⟨by rwa [splitOn_eq, List.length_append], fun l hl => ?_⟩
    rw [splitOn_eq] at hl
    rcases List.mem_append.mp hl with hl | hl
    · exact hcolumns l (List.mem_append_left _ hl)
    · rw [List.mem_singleton.mp hl]
      refine lt_of_le_of_lt ?_ (hcolumns _ (List.mem_append_right _ (List.mem_singleton_self _)))
      rw [List.length_append]
      exact Nat.le_add_right _ _

end Fits

end Lines
