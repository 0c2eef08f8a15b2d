import Mathlib.Order.Defs.Unbundled

/-!
# Logic/Wp — weakest preconditions for computations that may stop

`EStateM ε σ` computes on a state and either returns or stops; the state survives both.
`wp m Q E s` is the weakest precondition read at one state: run from `s`, `m` ends in `Q` if it
returns and in `E` if it stops.  A two-state property of a computation is `Keeps R m`, and the
rules below say that it composes as soon as `R` is a preorder.
-/

namespace Wp

variable {ε σ α β : Type} {m : EStateM ε σ α} {f : α → EStateM ε σ β} {s t : σ}

/-- Run from `s`, `m` ends in `Q` if it returns and in `E` if it stops. -/
def wp (m : EStateM ε σ α) (Q : α → σ → Prop) (E : ε → σ → Prop) (s : σ) : Prop :=
  match m s with
  | .ok a t => Q a t
  | .error e t => E e t

/-! ## Reading a triple off a run -/

section Runs

variable {Q : α → σ → Prop} {E : ε → σ → Prop}

theorem wp_of_ok {a : α} (h : m s = .ok a t) : wp m Q E s ↔ Q a t := by
  rw [wp, h]

theorem wp_of_error {e : ε} (h : m s = .error e t) : wp m Q E s ↔ E e t := by
  rw [wp, h]

/-- A step that returns hands its value and state to what follows. -/
theorem bind_of_ok {a : α} (h : m s = .ok a t) : (m >>= f) s = f a t := by
  change (match m s with
    | .ok a t => f a t
    | .error e t => .error e t) = f a t
  rw [h]

/-- A step that stops stops what follows. -/
theorem bind_of_error {e : ε} (h : m s = .error e t) : (m >>= f) s = .error e t := by
  change (match m s with
    | .ok a t => f a t
    | .error e t => .error e t) = _
  rw [h]

theorem map_of_ok {g : α → β} {a : α} (h : m s = .ok a t) : (g <$> m) s = .ok (g a) t := by
  have hb : (g <$> m) s = match m s with
      | .ok a t => .ok (g a) t
      | .error e t => .error e t := rfl
  rw [hb, h]

theorem map_of_error {g : α → β} {e : ε} (h : m s = .error e t) :
    (g <$> m) s = .error e t := by
  have hb : (g <$> m) s = match m s with
      | .ok a t => .ok (g a) t
      | .error e t => .error e t := rfl
  rw [hb, h]

/-- A triple holds as soon as it holds of whatever the run does. -/
theorem wp_intro (hok : ∀ a t, m s = .ok a t → Q a t)
    (herr : ∀ e t, m s = .error e t → E e t) : wp m Q E s := by
  cases h : m s with
  | ok a t => exact (wp_of_ok h).mpr (hok a t h)
  | error e t => exact (wp_of_error h).mpr (herr e t h)

theorem wp_mono {Q' : α → σ → Prop} {E' : ε → σ → Prop} (h : wp m Q E s)
    (hQ : ∀ a t, Q a t → Q' a t) (hE : ∀ e t, E e t → E' e t) : wp m Q' E' s :=
  wp_intro (fun a t hr => hQ a t ((wp_of_ok hr).mp h))
    fun e t hr => hE e t ((wp_of_error hr).mp h)

/-- A triple that rules stopping out: the run returns. -/
theorem wp_returns : wp m Q (fun _ _ => False) s ↔ ∃ a t, m s = .ok a t ∧ Q a t := by
  rw [wp]
  cases m s with
  | ok a t => exact ⟨fun h => ⟨a, t, rfl, h⟩, fun ⟨_, _, hr, h⟩ => by cases hr; exact h⟩
  | error e t => exact ⟨False.elim, fun ⟨_, _, hr, _⟩ => by cases hr⟩

/-- A run that returns, as a triple. -/
theorem eq_ok_iff {a : α} :
    m s = .ok a t ↔ wp m (fun b u => b = a ∧ u = t) (fun _ _ => False) s := by
  rw [wp_returns]
  exact ⟨fun h => ⟨a, t, h, rfl, rfl⟩, fun ⟨_, _, h, hb, hu⟩ => hb ▸ hu ▸ h⟩

/-- The state a run ends in, whether it returns or stops. -/
def after (m : EStateM ε σ α) (s : σ) : σ :=
  match m s with
  | .ok _ t => t
  | .error _ t => t

theorem wp_after {Q : σ → Prop} : wp m (fun _ => Q) (fun _ => Q) s ↔ Q (after m s) := by
  rw [wp, after]
  cases m s <;> rfl

/-- A triple for one concrete run, by computing it. -/
def check (m : EStateM ε σ α) (q : α → σ → Bool) (s : σ) : Bool :=
  match m s with
  | .ok a t => q a t
  | .error _ _ => false

theorem of_check {q : α → σ → Bool} (h : check m q s = true) :
    ∃ a t, m s = .ok a t ∧ q a t = true := by
  rw [check] at h
  cases hr : m s with
  | ok a t => exact ⟨a, t, rfl, by rwa [hr] at h⟩
  | error e t => rw [hr] at h; cases h

/-- Two triples about one run, read together. -/
theorem wp_and {Q' : α → σ → Prop} {E' : ε → σ → Prop} (h : wp m Q E s) (h' : wp m Q' E' s) :
    wp m (fun a t => Q a t ∧ Q' a t) (fun e t => E e t ∧ E' e t) s :=
  wp_intro (fun _ _ hr => ⟨(wp_of_ok hr).mp h, (wp_of_ok hr).mp h'⟩)
    fun _ _ hr => ⟨(wp_of_error hr).mp h, (wp_of_error hr).mp h'⟩

end Runs

/-! ## The rules -/

section Rules

variable {Q : α → σ → Prop} {R : β → σ → Prop} {E : ε → σ → Prop}

@[simp] theorem wp_pure (a : α) : wp (pure a) Q E s ↔ Q a s := Iff.rfl

/-- **The rule of sequencing.** -/
@[simp] theorem wp_bind : wp (m >>= f) R E s ↔ wp m (fun a t => wp (f a) R E t) E s := by
  have hb : (m >>= f) s = match m s with
      | .ok a t => f a t
      | .error e t => .error e t := rfl
  simp only [wp, hb]
  cases m s <;> rfl

@[simp] theorem wp_map (g : α → β) : wp (g <$> m) R E s ↔ wp m (fun a t => R (g a) t) E s := by
  have hb : (g <$> m) s = match m s with
      | .ok a t => .ok (g a) t
      | .error e t => .error e t := rfl
  simp only [wp, hb]
  cases m s <;> rfl

@[simp] theorem wp_get {Q : σ → σ → Prop} :
    wp (get : EStateM ε σ σ) Q E s ↔ Q s s := Iff.rfl

@[simp] theorem wp_set {Q : PUnit → σ → Prop} :
    wp (set t : EStateM ε σ PUnit) Q E s ↔ Q ⟨⟩ t := Iff.rfl

@[simp] theorem wp_modify {Q : PUnit → σ → Prop} (g : σ → σ) :
    wp (modify g : EStateM ε σ PUnit) Q E s ↔ Q ⟨⟩ (g s) := Iff.rfl

@[simp] theorem wp_throw (e : ε) : wp (throw e : EStateM ε σ α) Q E s ↔ E e s := Iff.rfl

/-- A computation given by its effect on the state. -/
@[simp] theorem wp_ok {a : α} {g : σ → σ} :
    wp (fun s => .ok a (g s) : EStateM ε σ α) Q E s ↔ Q a (g s) := Iff.rfl

theorem wp_ite (c : Prop) [Decidable c] (m₁ m₂ : EStateM ε σ α) :
    wp (if c then m₁ else m₂) Q E s ↔ (c → wp m₁ Q E s) ∧ (¬ c → wp m₂ Q E s) := by
  by_cases h : c <;> simp [h]

end Rules

/-! ## Results -/

section Yields

variable {P : α → Prop} {R : β → Prop}

/-- Whatever `m` returns is in `P`. -/
def Yields (P : α → Prop) (m : EStateM ε σ α) : Prop :=
  ∀ s, wp m (fun a _ => P a) (fun _ _ => True) s

theorem Yields.pure {a : α} (h : P a) : Yields P (pure a : EStateM ε σ α) := fun _ => h

theorem Yields.bind (hf : ∀ a, Yields R (f a)) : Yields R (m >>= f) := fun _ =>
  wp_bind.mpr (wp_intro (fun a t _ => hf a t) fun _ _ _ => trivial)

theorem Yields.ite {c : Prop} [Decidable c] {m₁ m₂ : EStateM ε σ α} (h₁ : Yields P m₁)
    (h₂ : Yields P m₂) : Yields P (if c then m₁ else m₂) := by
  by_cases h : c <;> simpa [h]

end Yields

/-! ## Two-state invariants -/

section Keeps

variable {R : σ → σ → Prop} {E : ε → Prop}

/-- Every run of `m` ends in a state `R`-related to its start, and if it stops, for a reason
in `E`. -/
def Keeps (R : σ → σ → Prop) (E : ε → Prop) (m : EStateM ε σ α) : Prop :=
  ∀ s, wp m (fun _ => R s) (fun e t => E e ∧ R s t) s

theorem Keeps.ok {a : α} (h : Keeps R E m) (hr : m s = .ok a t) : R s t :=
  (wp_of_ok hr).mp (h s)

theorem Keeps.error {e : ε} (h : Keeps R E m) (hr : m s = .error e t) : E e ∧ R s t :=
  (wp_of_error hr).mp (h s)

theorem Keeps.mono {R' : σ → σ → Prop} (h : Keeps R E m) (hR : ∀ s t, R s t → R' s t) :
    Keeps R' E m := fun s => wp_mono (h s) (fun _ t => hR s t) fun _ t ht => ⟨ht.1, hR s t ht.2⟩

theorem Keeps.modify {g : σ → σ} (h : ∀ s, R s (g s)) :
    Keeps R E (modify g : EStateM ε σ PUnit) := fun s => h s

theorem Keeps.ite {c : Prop} [Decidable c] {m₁ m₂ : EStateM ε σ α} (h₁ : Keeps R E m₁)
    (h₂ : Keeps R E m₂) : Keeps R E (if c then m₁ else m₂) := by
  by_cases h : c <;> simpa [h]

variable [IsPreorder σ R]

theorem Keeps.pure (a : α) : Keeps R E (pure a : EStateM ε σ α) := fun s => refl_of R s

theorem Keeps.get : Keeps R E (get : EStateM ε σ σ) := fun s => refl_of R s

theorem Keeps.throw {e : ε} (he : E e) : Keeps R E (throw e : EStateM ε σ α) :=
  fun s => ⟨he, refl_of R s⟩

/-- Going on from a state already related to the start. -/
theorem wp_of_trans (hst : R s t) (h : wp m (fun _ => R t) (fun e u => E e ∧ R t u) t) :
    wp m (fun _ => R s) (fun e u => E e ∧ R s u) t :=
  wp_mono h (fun _ _ htu => trans_of R hst htu) fun _ _ htu => ⟨htu.1, trans_of R hst htu.2⟩

/-- **Two-state invariants compose.** -/
theorem Keeps.bind (hm : Keeps R E m) (hf : ∀ a, Keeps R E (f a)) : Keeps R E (m >>= f) := by
  intro s
  rw [wp_bind]
  exact wp_mono (hm s) (fun a t hst => wp_of_trans hst (hf a t)) fun _ _ hst => hst

end Keeps

end Wp
