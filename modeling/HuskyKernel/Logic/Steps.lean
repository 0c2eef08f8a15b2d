import Mathlib.Data.Nat.Notation
import Mathlib.Logic.Relator

/-!
# Logic/Steps — a run and the steps it is made of

`Steps R s l t` runs `R` from `s` to `t` and lists its steps in `l`, so that a property of a run may
speak of every step in it.  An invariant is proved once for a step and once for a run
(`Steps.invariant`); if `R` is deterministic, a run into a final state contains every other run from
the same start (`Steps.split`).
-/

variable {σ : Type*} {R : σ → σ → Prop} {s t u : σ} {l l' : List (σ × σ)}

/-- `R` runs from `s` to `t`, step by step through `l`. -/
inductive Steps (R : σ → σ → Prop) : σ → List (σ × σ) → σ → Prop
  | nil (s : σ) : Steps R s [] s
  | cons {s t u : σ} {l : List (σ × σ)} : R s t → Steps R t l u → Steps R s ((s, t) :: l) u

namespace Steps

theorem append (h : Steps R s l t) (h' : Steps R t l' u) : Steps R s (l ++ l') u := by
  induction h with
  | nil => exact h'
  | cons hr _ ih => exact .cons hr (ih h')

theorem snoc (h : Steps R s l t) (hr : R t u) : Steps R s (l ++ [(t, u)]) u :=
  h.append (.cons hr (.nil u))

/-- **Every step listed is a step of the run**: it cuts the run in two. -/
theorem of_mem (h : Steps R s l u) {p : σ × σ} (hp : p ∈ l) :
    R p.1 p.2 ∧ (∃ l₁, Steps R s l₁ p.1) ∧ ∃ l₂, Steps R p.2 l₂ u := by
  induction h with
  | nil => cases hp
  | cons hr hl ih =>
    rcases List.mem_cons.mp hp with rfl | hp
    · exact ⟨hr, ⟨[], .nil _⟩, ⟨_, hl⟩⟩
    · obtain ⟨h₁, ⟨l₁, h₂⟩, h₃⟩ := ih hp
      exact ⟨h₁, ⟨_, .cons hr h₂⟩, h₃⟩

/-- **The invariant rule**: what every step of the run preserves holds at its end. -/
theorem invariant {P : σ → Prop} (h : Steps R s l t) (h₀ : P s)
    (hstep : ∀ p ∈ l, R p.1 p.2 → P p.1 → P p.2) : P t := by
  induction h with
  | nil => exact h₀
  | cons hr _ ih =>
    exact ih (hstep _ List.mem_cons_self hr h₀) fun p hp => hstep p (List.mem_cons_of_mem _ hp)

/-- **The invariant rule, for an invariant of every step**. -/
theorem keeps {P : σ → Prop} (h : Steps R s l t) (hstep : ∀ a b, R a b → P a → P b) (h₀ : P s) :
    P t := h.invariant h₀ fun _ _ => hstep _ _

/-- **A deterministic run that cannot go on contains every run from its start.** -/
theorem split (hdet : Relator.RightUnique R) (h : Steps R s l u) (hfin : ∀ v, ¬ R u v)
    (h' : Steps R s l' t) : ∃ l₂, l = l' ++ l₂ ∧ Steps R t l₂ u := by
  induction h' generalizing l with
  | nil => exact ⟨l, rfl, h⟩
  | cons hr _ ih =>
    cases h with
    | nil => exact absurd hr (hfin _)
    | cons hr' hl =>
      obtain rfl := hdet hr hr'
      obtain ⟨l₂, rfl, h₂⟩ := ih hl
      exact ⟨l₂, rfl, h₂⟩

/-- Two deterministic runs that cannot go on are the same run. -/
theorem unique (hdet : Relator.RightUnique R) (h : Steps R s l t) (hfin : ∀ v, ¬ R t v)
    (h' : Steps R s l' u) (hfin' : ∀ v, ¬ R u v) : l = l' ∧ t = u := by
  obtain ⟨l₂, rfl, h₂⟩ := h.split hdet hfin h'
  cases h₂ with
  | nil => exact ⟨List.append_nil _, rfl⟩
  | cons hr _ => exact absurd hr (hfin' _)

end Steps
