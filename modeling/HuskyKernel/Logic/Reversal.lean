import Mathlib.Data.Nat.Basic
import Mathlib.Logic.Function.Basic

/-!
# Logic/Reversal — reversal in place, by two indices that converge

`run f lo hi` exchanges the ends of the stretch from `lo` up to `hi`, then those of what is between
them, as long as they are two.  `run_apply`: the stretch is turned round, and nothing else moves.
-/

namespace Reversal

variable {α : Type*}

/-- Two entries change places. -/
def exchange (f : ℕ → α) (i j : ℕ) : ℕ → α := Function.update (Function.update f i (f j)) j (f i)

/-- Exchange the ends, and go on between them. -/
def run (f : ℕ → α) (lo : ℕ) : ℕ → ℕ → α
  | 0 => f
  | hi + 1 => if lo < hi then run (exchange f hi lo) (lo + 1) hi else f

variable {f : ℕ → α} {i j k lo hi : ℕ}

theorem exchange_left (h : i ≠ j) : exchange f i j i = f j := by
  rw [exchange, Function.update_of_ne h, Function.update_self]

theorem exchange_right : exchange f i j j = f i := Function.update_self ..

theorem exchange_of_ne (hi : k ≠ i) (hj : k ≠ j) : exchange f i j k = f k := by
  rw [exchange, Function.update_of_ne hj, Function.update_of_ne hi]

/-- **The stretch is turned round**, at even lengths and at odd ones. -/
theorem run_apply (f : ℕ → α) (lo hi i : ℕ) :
    run f lo hi i = if lo ≤ i ∧ i < hi then f (lo + hi - 1 - i) else f i := by
  induction hi generalizing f lo with
  | zero => rw [if_neg fun h => Nat.not_lt_zero i h.2, run]
  | succ hi ih =>
    rw [run]
    by_cases hlt : lo < hi
    · rw [if_pos hlt, ih]
      rcases eq_or_ne i lo with rfl | hlo
      · rw [if_neg (by omega), if_pos (by omega), exchange_right,
          show i + (hi + 1) - 1 - i = hi by omega]
      rcases eq_or_ne i hi with rfl | hhi
      · rw [if_neg (by omega), if_pos (by omega), exchange_left (by omega),
          show lo + (i + 1) - 1 - i = lo by omega]
      · by_cases hin : lo + 1 ≤ i ∧ i < hi
        · rw [if_pos hin, if_pos (by omega), exchange_of_ne (by omega) (by omega),
            show lo + (hi + 1) - 1 - i = lo + 1 + hi - 1 - i by omega]
        · rw [if_neg hin, if_neg (by omega), exchange_of_ne hhi hlo]
    · rw [if_neg hlt]
      by_cases hin : lo ≤ i ∧ i < hi + 1
      · rw [if_pos hin, show lo + (hi + 1) - 1 - i = i by omega]
      · rw [if_neg hin]

end Reversal
