import Mathlib.Data.List.Basic

/-!
# Logic/Frames — the locals of the calls that are running

A pointer to a local names the call that has it: it shows the local as long as the call runs
(`read_enter`), and nothing once the call has returned (`read_leave_enter`).
-/

namespace HuskyKernel

variable {α : Type*}

/-- The locals of the calls that have not returned, each with the number of its call; `next` is the
number of the next one. -/
structure Frames (α : Type*) where
  next : ℕ
  live : List (ℕ × α)
  numbered : ∀ f ∈ live, f.1 < next

namespace Frames

/-- No call is running. -/
def empty : Frames α := ⟨0, [], fun _ hf => absurd hf List.not_mem_nil⟩

/-- A call with the local `x`: a pointer to it, and the locals there are then. -/
def enter (x : α) (s : Frames α) : ℕ × Frames α :=
  (s.next, ⟨s.next + 1, (s.next, x) :: s.live, fun _ hf =>
    (List.mem_cons.mp hf).elim (fun h => h ▸ Nat.lt_succ_self _)
      fun h => Nat.lt_succ_of_lt (s.numbered _ h)⟩)

/-- The innermost call returns. -/
def leave (s : Frames α) : Frames α :=
  ⟨s.next, s.live.tail, fun _ hf => s.numbered _ (List.mem_of_mem_tail hf)⟩

/-- What a pointer shows, if its object is alive. -/
def read (s : Frames α) (p : ℕ) : Option α := s.live.lookup p

variable {s : Frames α} {p : ℕ}

/-- As long as the call runs, the pointer shows the local. -/
theorem read_enter (x : α) (s : Frames α) : (s.enter x).2.read (s.enter x).1 = some x :=
  List.lookup_cons_self

/-- A number no call has got yet is nobody's. -/
theorem read_of_le (h : s.next ≤ p) : s.read p = none := by
  refine List.lookup_eq_none_iff.mpr fun f hf => ?_
  have hlt := s.numbered f hf
  have hne : p ≠ f.1 := by omega
  simpa using hne

/-- **A pointer to a local shows nothing any more** when its call has returned. -/
theorem read_leave_enter (x : α) (s : Frames α) :
    (s.enter x).2.leave.read (s.enter x).1 = none := read_of_le (s := s) (Nat.le_refl _)

end Frames

end HuskyKernel
