import Mathlib.Data.List.Induction

/-!
# Logic/Service — a state behind an interface, called over and over

A `Service` answers calls from a state that only its calls change.  `history is` is what a client
sees of the run that makes the calls `is`: every call with its answer, the oldest first.  What
holds between the history and the state is proved once for one more call (`Service.invariant`).

A client's bookkeeping is a statement about the history alone; `Since P Q h` says that something
happened and has not been undone.
-/

variable {ι ω σ α : Type*}

/-! ## Since -/

/-- Something in `h` is in `P`, and nothing after it is in `Q`. -/
def Since (P Q : α → Prop) (h : List α) : Prop :=
  ∃ h₁ x h₂, h = h₁ ++ x :: h₂ ∧ P x ∧ ∀ y ∈ h₂, ¬ Q y

namespace Since

variable {P Q : α → Prop} {h : List α} {c : α}

@[simp] theorem nil : ¬ Since P Q ([] : List α) := by
  rintro ⟨h₁, x, h₂, heq, -⟩
  simp at heq

/-- **One more entry**: it starts the time itself, or it does not end it. -/
theorem concat : Since P Q (h ++ [c]) ↔ P c ∨ Since P Q h ∧ ¬ Q c := by
  constructor
  · rintro ⟨h₁, x, h₂, heq, hx, hQ⟩
    rcases List.eq_nil_or_concat h₂ with rfl | ⟨h₃, d, rfl⟩
    · obtain ⟨-, hc⟩ := List.append_inj' heq rfl
      obtain rfl := List.singleton_inj.mp hc
      exact Or.inl hx
    · rw [List.concat_eq_append] at heq hQ
      rw [← List.cons_append, ← List.append_assoc] at heq
      obtain ⟨rfl, hc⟩ := List.append_inj' heq rfl
      obtain rfl := List.singleton_inj.mp hc
      exact Or.inr ⟨⟨h₁, x, h₃, rfl, hx, fun y hy => hQ y (List.mem_append_left _ hy)⟩,
        hQ c (by simp)⟩
  · rintro (hc | ⟨⟨h₁, x, h₂, rfl, hx, hQ⟩, hc⟩)
    · exact ⟨h, c, [], rfl, hc, by simp⟩
    · refine ⟨h₁, x, h₂ ++ [c], by simp, hx, fun y hy => ?_⟩
      rcases List.mem_append.mp hy with hy | hy
      · exact hQ y hy
      · rwa [List.mem_singleton.mp hy]

end Since

/-! ## Services -/

/-- The state at boot, and what call `i` answers in a state and leaves behind. -/
structure Service (ι ω σ : Type*) where
  boot : σ
  call : σ → ι → ω × σ

namespace Service

variable {S : Service ι ω σ}

/-- One call after a history: it is recorded with its answer. -/
def next (S : Service ι ω σ) (r : List (ι × ω) × σ) (i : ι) : List (ι × ω) × σ :=
  (r.1 ++ [(i, (S.call r.2 i).1)], (S.call r.2 i).2)

/-- The run that makes the calls `is`, the first one first. -/
def run (S : Service ι ω σ) (is : List ι) : List (ι × ω) × σ := is.foldl S.next ([], S.boot)

/-- What the client saw. -/
def history (S : Service ι ω σ) (is : List ι) : List (ι × ω) := (S.run is).1

/-- The state it left. -/
def state (S : Service ι ω σ) (is : List ι) : σ := (S.run is).2

@[simp] theorem history_nil : S.history [] = [] := rfl

@[simp] theorem state_nil : S.state [] = S.boot := rfl

theorem run_concat (is : List ι) (i : ι) : S.run (is ++ [i]) = S.next (S.run is) i :=
  List.foldl_append.trans rfl

@[simp] theorem history_concat (is : List ι) (i : ι) :
    S.history (is ++ [i]) = S.history is ++ [(i, (S.call (S.state is) i).1)] :=
  congrArg Prod.fst (run_concat is i)

@[simp] theorem state_concat (is : List ι) (i : ι) :
    S.state (is ++ [i]) = (S.call (S.state is) i).2 :=
  congrArg Prod.snd (run_concat is i)

/-- **The invariant rule**: what boot establishes and every call preserves holds of every run. -/
theorem invariant {P : List (ι × ω) → σ → Prop} (hboot : P [] S.boot)
    (hcall : ∀ h s i, P h s → P (h ++ [(i, (S.call s i).1)]) (S.call s i).2) (is : List ι) :
    P (S.history is) (S.state is) := by
  induction is using List.reverseRecOn with
  | nil => exact hboot
  | append_singleton is i ih =>
    rw [history_concat, state_concat]
    exact hcall _ _ i ih

/-- **The rule for an invariant of the state alone.** -/
theorem keeps {P : σ → Prop} (hboot : P S.boot) (hcall : ∀ s i, P s → P (S.call s i).2)
    (is : List ι) : P (S.state is) :=
  S.invariant (P := fun _ s => P s) hboot (fun _ s i => hcall s i) is

/-! ## Every call -/

variable {P : σ → ι → Prop}

/-- Every call is made in a state that `P` allows it in. -/
def Each (S : Service ι ω σ) (P : σ → ι → Prop) (is : List ι) : Prop :=
  ∀ is₁ i is₂, is = is₁ ++ i :: is₂ → P (S.state is₁) i

theorem each_nil : S.Each P [] := fun is₁ i is₂ h => by simp at h

theorem each_concat {is : List ι} {i : ι} :
    S.Each P (is ++ [i]) ↔ S.Each P is ∧ P (S.state is) i := by
  constructor
  · exact fun h => ⟨fun is₁ j is₂ heq => h is₁ j (is₂ ++ [i]) (by simp [heq]), h is i [] rfl⟩
  · rintro ⟨h, hi⟩ is₁ j is₂ heq
    rcases List.eq_nil_or_concat is₂ with rfl | ⟨is₃, k, rfl⟩
    · obtain ⟨rfl, hj⟩ := List.append_inj' heq rfl
      obtain rfl := List.singleton_inj.mp hj
      exact hi
    · rw [List.concat_eq_append, ← List.cons_append, ← List.append_assoc] at heq
      exact h is₁ j is₃ (List.append_inj' heq rfl).1

/-- **The rule for a property that every call decides**: what holds at boot, and after a call
exactly if it held before and the call was allowed, holds exactly after runs of allowed calls. -/
theorem each_iff {I Q : σ → Prop} (hboot : I S.boot ∧ Q S.boot)
    (hkeep : ∀ s i, I s → I (S.call s i).2)
    (hcall : ∀ s i, I s → (Q (S.call s i).2 ↔ Q s ∧ P s i)) (is : List ι) :
    Q (S.state is) ↔ S.Each P is := by
  induction is using List.reverseRecOn with
  | nil => exact iff_of_true hboot.2 each_nil
  | append_singleton is i ih =>
    rw [state_concat, each_concat, hcall _ i (S.keeps hboot.1 hkeep is), ih]

end Service
