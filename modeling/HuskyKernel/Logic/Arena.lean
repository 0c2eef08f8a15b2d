import Mathlib.Order.CompletePartialOrder
import Mathlib.Order.Interval.Set.Disjoint

/-!
# Logic/Arena — blocks carved one after another out of a region

An `Arena lo hi` is what a bump allocator over `[lo, hi)` has handed out so far.  Its fields carry
the two facts callers want — every block lies in the region, no two blocks meet — so an allocation
is a construction, and a run of allocations needs no invariant of its own.
-/

/-- `size` cells from `start` on. -/
structure Block where
  start : ℕ
  size : ℕ
deriving DecidableEq, Repr

namespace Block

/-- The first index behind the block. -/
def stop (b : Block) : ℕ := b.start + b.size

/-- The cells of the block. -/
def span (b : Block) : Set ℕ := Set.Ico b.start b.stop

/-- The block lies inside `[lo, hi)`. -/
def Inside (lo hi : ℕ) (b : Block) : Prop := lo ≤ b.start ∧ b.stop ≤ hi

/-- The two blocks share no cell. -/
def Apart (a b : Block) : Prop := Disjoint a.span b.span

theorem apart_of_stop_le {a b : Block} (h : a.stop ≤ b.start) : a.Apart b :=
  Set.disjoint_left.mpr fun _ hx hy => absurd (lt_of_lt_of_le hx.2 h) (not_lt.mpr hy.1)

end Block

/-- What a bump allocator over `[lo, hi)` has handed out: `blocks`, the oldest first, all of them
below `top`, where the next one starts. -/
structure Arena (lo hi : ℕ) where
  blocks : List Block
  top : ℕ
  top_le : top ≤ hi
  inside : ∀ b ∈ blocks, b.Inside lo top
  apart : blocks.Pairwise Block.Apart
  le_top : lo ≤ top

namespace Arena

variable {lo hi : ℕ}

/-- Nothing handed out yet. -/
def empty (h : lo ≤ hi) : Arena lo hi where
  blocks := []
  top := lo
  top_le := h
  inside := by simp
  apart := List.Pairwise.nil
  le_top := le_refl lo

/-- **Bumping keeps the region tidy**: the next block starts at `top`, behind every other. -/
def alloc (a : Arena lo hi) (n : ℕ) (h : a.top + n ≤ hi) : Arena lo hi where
  blocks := a.blocks ++ [⟨a.top, n⟩]
  top := a.top + n
  top_le := h
  inside := by
    intro b hb
    rcases List.mem_append.mp hb with hb | hb
    · exact ⟨(a.inside b hb).1, (a.inside b hb).2.trans (Nat.le_add_right _ _)⟩
    · obtain rfl := List.mem_singleton.mp hb
      exact ⟨a.le_top, le_refl _⟩
  apart := by
    refine List.pairwise_append.mpr ⟨a.apart, List.pairwise_singleton _ _, fun b hb c hc => ?_⟩
    obtain rfl := List.mem_singleton.mp hc
    exact Block.apart_of_stop_le (a.inside b hb).2
  le_top := a.le_top.trans (Nat.le_add_right _ _)

@[simp] theorem blocks_empty (h : lo ≤ hi) : (empty h).blocks = [] := rfl

@[simp] theorem top_empty (h : lo ≤ hi) : (empty h).top = lo := rfl

@[simp] theorem blocks_alloc (a : Arena lo hi) (n : ℕ) (h : a.top + n ≤ hi) :
    (a.alloc n h).blocks = a.blocks ++ [⟨a.top, n⟩] := rfl

@[simp] theorem top_alloc (a : Arena lo hi) (n : ℕ) (h : a.top + n ≤ hi) :
    (a.alloc n h).top = a.top + n := rfl

end Arena
