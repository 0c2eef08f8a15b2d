import Mathlib.Data.List.Basic

/-!
# Logic/Noted — a value, and what was noted on the way to it

A program written over `Noted γ` computes as it would without it and notes a list of `γ`s besides:
the addresses it reads, say.  What holds of everything noted is read off the program step by step
(`forall_bind_iff`).
-/

/-- A value, and what was noted on the way to it. -/
structure Noted (γ α : Type*) where
  value : α
  notes : List γ

namespace Noted

universe u v

variable {γ : Type v} {α β : Type u} {P : γ → Prop} {x y : Noted γ α} {f : α → Noted γ β}

instance : Monad (Noted γ : Type u → Type (max u v)) where
  pure a := ⟨a, []⟩
  bind x f := ⟨(f x.value).value, x.notes ++ (f x.value).notes⟩

@[simp] theorem value_pure (a : α) : (pure a : Noted γ α).value = a := rfl

@[simp] theorem value_bind : (x >>= f).value = (f x.value).value := rfl

theorem value_ite (c : Prop) [Decidable c] :
    (if c then x else y).value = if c then x.value else y.value := by
  by_cases h : c <;> simp [h]

/-! ## What everything noted is like -/

/-- `P` holds of everything noted. -/
def Forall (P : γ → Prop) (x : Noted γ α) : Prop := ∀ c ∈ x.notes, P c

@[simp] theorem forall_pure (a : α) : Forall P (pure a : Noted γ α) :=
  fun _ h => absurd h List.not_mem_nil

@[simp] theorem forall_bind_iff : Forall P (x >>= f) ↔ Forall P x ∧ Forall P (f x.value) :=
  List.forall_mem_append

theorem forall_ite_iff (c : Prop) [Decidable c] :
    Forall P (if c then x else y) ↔ (c → Forall P x) ∧ (¬ c → Forall P y) := by
  by_cases h : c <;> simp [h]

end Noted
