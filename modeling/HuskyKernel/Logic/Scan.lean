import Mathlib.Data.List.GetD
import Mathlib.Data.List.TakeWhile

/-!
# Logic/Scan — where a scanning loop stops

`while (p(l[i])) i++;` walks a list whose end reads as a terminator `d` that fails `p`.  `scan p l
i` is the index it stops at, and `scanned p l i` what it walked over.  The loop's own unfolding
(`scan_succ`, `scan_eq_self`) is a theorem, so a definition written with `scan` is the loop.
-/

namespace Scan

variable {α : Type*} {p : α → Bool} {d : α} {l xs ys : List α} {i n : ℕ}

/-- What `while (p(l[i])) i++;` walks over. -/
def scanned (p : α → Bool) (l : List α) (i : ℕ) : List α := (l.drop i).takeWhile p

/-- Where `while (p(l[i])) i++;` stops. -/
def scan (p : α → Bool) (l : List α) (i : ℕ) : ℕ := i + (scanned p l i).length

theorem le_scan : i ≤ scan p l i := Nat.le_add_right _ _

theorem headD_drop (l : List α) (i : ℕ) (d : α) : (l.drop i).headD d = l.getD i d := by
  simp [List.headD_eq_head?_getD, List.head?_drop]

theorem drop_eq_cons_of_getD (h : p (l.getD i d) = true) (hd : p d = false) :
    l.drop i = l.getD i d :: l.drop (i + 1) := by
  have hi : i < l.length := by
    by_contra hi
    rw [List.getD_eq_default _ _ (by omega)] at h
    simp [hd] at h
  rw [List.drop_eq_getElem_cons hi, List.getD_eq_getElem _ _ hi]

/-! ## The loop, unfolded -/

theorem scanned_eq_nil (h : p (l.getD i d) = false) : scanned p l i = [] := by
  rw [scanned]
  rw [← headD_drop] at h
  cases hl : l.drop i with
  | nil => rfl
  | cons a t => rw [hl] at h; simpa using h

theorem scanned_eq_cons (h : p (l.getD i d) = true) (hd : p d = false) :
    scanned p l i = l.getD i d :: scanned p l (i + 1) := by
  rw [scanned, drop_eq_cons_of_getD h hd, List.takeWhile_cons_of_pos h, scanned]

/-- The loop test fails: the loop stops where it is. -/
theorem scan_eq_self (h : p (l.getD i d) = false) : scan p l i = i := by
  rw [scan, scanned_eq_nil h, List.length_nil, Nat.add_zero]

/-- The loop test holds: the loop goes on at the next index. -/
theorem scan_succ (h : p (l.getD i d) = true) (hd : p d = false) :
    scan p l i = scan p l (i + 1) := by
  rw [scan, scanned_eq_cons h hd, List.length_cons, scan]
  omega

/-! ## What stops it, and what it cannot pass -/

/-- The loop has nothing left to walk over from the end of the list on. -/
theorem scan_of_length_le (hi : l.length ≤ i) : scan p l i = i := by
  simp [scan, scanned, List.drop_eq_nil_of_le hi]

/-- An index property that the loop's own step preserves reaches the place it stops at. -/
theorem scan_induction {P : ℕ → Prop} {i : ℕ} (hd : p d = false) (h₀ : P i)
    (hstep : ∀ j, i ≤ j → p (l.getD j d) = true → P j → P (j + 1)) : P (scan p l i) := by
  by_cases hp : p (l.getD i d) = true
  case neg => rwa [scan_eq_self (by simpa using hp)]
  by_cases hi : i < l.length
  case neg => rwa [scan_of_length_le (by omega)]
  rw [scan_succ hp hd]
  exact scan_induction hd (hstep i (le_refl i) hp h₀)
    fun j hj hpj => hstep j (by omega) hpj
termination_by l.length - i

/-- **The loop stops where its test fails.** -/
theorem getD_scan {i : ℕ} (hd : p d = false) : p (l.getD (scan p l i) d) = false := by
  by_cases hp : p (l.getD i d) = true
  case neg => rw [scan_eq_self (by simpa using hp)]; simpa using hp
  by_cases hi : i < l.length
  case neg => rw [List.getD_eq_default _ _ (by omega)] at hp; simp [hd] at hp
  rw [scan_succ hp hd]
  exact getD_scan hd
termination_by l.length - i

/-- **The loop does not pass an index where its test fails.** -/
theorem scan_le (hd : p d = false) (hn : p (l.getD n d) = false) (hin : i ≤ n) :
    scan p l i ≤ n := by
  refine scan_induction (P := (· ≤ n)) hd hin fun j _ hpj hjn => ?_
  rcases eq_or_lt_of_le hjn with rfl | hlt
  · rw [hn] at hpj
    cases hpj
  · exact hlt

/-! ## Scanning over a known run -/

theorem scanned_append (h : l.drop i = xs ++ ys) (hxs : ∀ x ∈ xs, p x = true)
    (hys : p (ys.headD d) = false) : scanned p l i = xs := by
  rw [scanned, h, List.takeWhile_append_of_pos hxs]
  cases ys with
  | nil => simp
  | cons y ys => rw [List.takeWhile_cons_of_neg (by simpa using hys), List.append_nil]

theorem scan_append (h : l.drop i = xs ++ ys) (hxs : ∀ x ∈ xs, p x = true)
    (hys : p (ys.headD d) = false) : scan p l i = i + xs.length := by
  rw [scan, scanned_append h hxs hys]

/-- What is left behind the loop. -/
theorem drop_scan : l.drop (scan p l i) = (l.drop i).dropWhile p := by
  have hl : l.drop i = (l.drop i).takeWhile p ++ (l.drop i).dropWhile p :=
    List.takeWhile_append_dropWhile.symm
  rw [scan, scanned, ← List.drop_drop]
  exact (congrArg _ hl).trans List.drop_left

theorem headD_dropWhile (hd : p d = false) : p ((l.dropWhile p).headD d) = false := by
  cases hl : l.dropWhile p with
  | nil => exact hd
  | cons a t => simpa [hl] using List.head_dropWhile_not p (l := l) (by simp [hl])


end Scan
