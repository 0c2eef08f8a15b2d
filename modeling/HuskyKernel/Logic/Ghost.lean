import HuskyKernel.Logic.Wp

/-!
# Logic/Ghost — a ghost variable beside the state

A property of a run that its state does not show, such as how often it calls something, is kept in a
ghost variable: `EStateM ε (σ × γ)` computes on a state with one beside it.  `Erases x m` says that
without the ghost `x` is `m`; the rules below build an `x` for every `m` step by step.
-/

namespace Ghost

open Wp

variable {ε σ γ α β : Type}

/-- What is left of a result without the ghost. -/
def erase : EStateM.Result ε (σ × γ) α → EStateM.Result ε σ α
  | .ok a t => .ok a t.1
  | .error e t => .error e t.1

/-- Without its ghost, `x` is `m`. -/
def Erases (x : EStateM ε (σ × γ) α) (m : EStateM ε σ α) : Prop := ∀ s g, erase (x (s, g)) = m s

/-- A computation that leaves the ghost alone. -/
def lift (m : EStateM ε σ α) : EStateM ε (σ × γ) α := fun s =>
  match m s.1 with
  | .ok a t => .ok a (t, s.2)
  | .error e t => .error e (t, s.2)

/-- A step of the ghost. -/
def note (f : γ → γ) : EStateM ε (σ × γ) Unit := modify fun s => (s.1, f s.2)

variable {x : EStateM ε (σ × γ) α} {m : EStateM ε σ α} {s t : σ} {g g' : γ} {a : α}

theorem lift_of_ok (h : m s = .ok a t) : (lift m : EStateM ε (σ × γ) α) (s, g) = .ok a (t, g) := by
  rw [lift, h]

/-- A run with its ghost is a run without it. -/
theorem Erases.ok (h : Erases x m) (hx : x (s, g) = .ok a (t, g')) : m s = .ok a t := by
  rw [← h s g, hx]
  rfl

/-! ## The rules -/

theorem Erases.lift (m : EStateM ε σ α) : Erases (Ghost.lift m : EStateM ε (σ × γ) α) m := by
  intro s g
  rw [Ghost.lift]
  cases m s <;> rfl

theorem Erases.note (f : γ → γ) : Erases (Ghost.note f : EStateM ε (σ × γ) Unit) (pure ()) :=
  fun _ _ => rfl

theorem Erases.pure (a : α) : Erases (pure a : EStateM ε (σ × γ) α) (pure a) := fun _ _ => rfl

/-- **Erasing composes.** -/
theorem Erases.bind {f : α → EStateM ε (σ × γ) β} {f' : α → EStateM ε σ β} (h : Erases x m)
    (hf : ∀ a, Erases (f a) (f' a)) : Erases (x >>= f) (m >>= f') := by
  intro s g
  have hs := h s g
  cases hx : x (s, g) with
  | ok a t =>
    rw [hx] at hs
    rw [bind_of_ok hx, bind_of_ok hs.symm]
    exact hf a t.1 t.2
  | error e t =>
    rw [hx] at hs
    rw [bind_of_error hx, bind_of_error hs.symm]
    rfl

theorem Erases.ite {c : Prop} [Decidable c] {x' : EStateM ε (σ × γ) α} {m' : EStateM ε σ α}
    (h : Erases x m) (h' : Erases x' m') :
    Erases (if c then x else x') (if c then m else m') := by
  by_cases hc : c <;> simpa [hc]

end Ghost
