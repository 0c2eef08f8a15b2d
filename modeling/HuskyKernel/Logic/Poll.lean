import HuskyKernel.Logic.Wp
import Mathlib.Data.Nat.Find
import Mathlib.Logic.Function.Iterate

/-!
# Logic/Poll — a loop that asks until it is answered

`poll body e n` runs `body` until it answers, `n` times at most, and stops with `e` if it never
does.  A body that always returns is what it answers in a state, `r`, and the state it leaves,
`next`; the loop is then decided by the first round that answers (`poll_ok_iff`,
`poll_error_iff`), and a bound can be found exactly if there is such a round.
-/

namespace Poll

open Wp

variable {ε σ α : Type} {body : EStateM ε σ (Option α)} {r : σ → Option α} {next : σ → σ}
  {e e' : ε} {s t : σ} {a b : α} {n k l : ℕ}

/-- Ask until there is an answer, at most `n` times. -/
def poll (body : EStateM ε σ (Option α)) (e : ε) : ℕ → EStateM ε σ α
  | 0 => throw e
  | n + 1 => do
      match ← body with
      | some a => return a
      | none => poll body e n

/-- The body always returns, with the answer `r` and in the state `next`. -/
def Returns (body : EStateM ε σ (Option α)) (r : σ → Option α) (next : σ → σ) : Prop :=
  ∀ s, body s = .ok (r s) (next s)

/-- Round `k` is the first that answers, and answers `a`. -/
structure Answers (r : σ → Option α) (next : σ → σ) (s : σ) (k : ℕ) (a : α) : Prop where
  before : ∀ j < k, r (next^[j] s) = none
  answer : r (next^[k] s) = some a

namespace Answers

/-- There is one first answer. -/
theorem unique (h : Answers r next s k a) (h' : Answers r next s l b) : k = l ∧ a = b := by
  rcases Nat.lt_trichotomy k l with hlt | rfl | hlt
  · exact absurd ((h'.before k hlt).symm.trans h.answer) (Option.some_ne_none a).symm
  · exact ⟨rfl, Option.some.inj (h.answer.symm.trans h'.answer)⟩
  · exact absurd ((h.before l hlt).symm.trans h'.answer) (Option.some_ne_none b).symm

theorem zero (h : r s = some a) : Answers r next s 0 a :=
  ⟨fun j hj => absurd hj (Nat.not_lt_zero j), h⟩

/-- The first round does not answer. -/
theorem succ_iff (h : r s = none) :
    Answers r next s (k + 1) a ↔ Answers r next (next s) k a := by
  constructor
  · exact fun hk => ⟨fun j hj => hk.before (j + 1) (Nat.succ_lt_succ hj), hk.answer⟩
  · refine fun hk => ⟨fun j hj => ?_, hk.answer⟩
    cases j with
    | zero => exact h
    | succ j => exact hk.before j (Nat.lt_of_succ_lt_succ hj)

/-- There is a first answer as soon as there is one. -/
theorem exists_le (h : r (next^[k] s) ≠ none) : ∃ j ≤ k, ∃ a, Answers r next s j a := by
  classical
  have hex : ∃ k, r (next^[k] s) ≠ none := ⟨k, h⟩
  obtain ⟨a, ha⟩ := Option.ne_none_iff_exists'.mp (Nat.find_spec hex)
  exact ⟨Nat.find hex, Nat.find_min' hex h, a,
    fun j hj => not_not.mp (Nat.find_min hex hj), ha⟩

end Answers

theorem poll_succ_of_some (hbody : Returns body r next) (h : r s = some a) :
    poll body e (n + 1) s = .ok a (next s) := by
  rw [poll, bind_of_ok (hbody s), h]
  rfl

theorem poll_succ_of_none (hbody : Returns body r next) (h : r s = none) :
    poll body e (n + 1) s = poll body e n (next s) := by
  rw [poll, bind_of_ok (hbody s), h]

/-- **The loop returns the first answer**, if it is in the first `n` rounds — induction on the
rounds. -/
theorem poll_ok_iff (hbody : Returns body r next) : poll body e n s = .ok a t ↔
    ∃ k < n, Answers r next s k a ∧ t = next^[k + 1] s := by
  induction n generalizing s with
  | zero =>
    exact iff_of_false (fun h => by cases h) fun ⟨k, hk, _⟩ => absurd hk (Nat.not_lt_zero k)
  | succ n ih =>
    cases hr : r s with
    | some b =>
      rw [poll_succ_of_some hbody hr]
      constructor
      · intro h
        injection h with hab ht
        exact ⟨0, Nat.succ_pos n, .zero (hab ▸ hr), ht.symm⟩
      · rintro ⟨k, -, hk, rfl⟩
        obtain ⟨rfl, rfl⟩ := hk.unique (.zero hr)
        rfl
    | none =>
      rw [poll_succ_of_none hbody hr, ih]
      constructor
      · rintro ⟨k, hk, hans, rfl⟩
        exact ⟨k + 1, Nat.succ_lt_succ hk, (Answers.succ_iff hr).mpr hans, rfl⟩
      · rintro ⟨k, hk, hans, rfl⟩
        cases k with
        | zero => exact absurd (hr.symm.trans hans.answer) (Option.some_ne_none a).symm
        | succ k =>
          exact ⟨k, Nat.lt_of_succ_lt_succ hk, (Answers.succ_iff hr).mp hans, rfl⟩

/-- **…and goes on past the bound exactly if none of them answers.** -/
theorem poll_error_iff (hbody : Returns body r next) : poll body e n s = .error e' t ↔
    e' = e ∧ (∀ k < n, r (next^[k] s) = none) ∧ t = next^[n] s := by
  induction n generalizing s with
  | zero =>
    constructor
    · intro h
      injection h with he ht
      exact ⟨he.symm, fun k hk => absurd hk (Nat.not_lt_zero k), ht.symm⟩
    · rintro ⟨rfl, -, rfl⟩
      rfl
  | succ n ih =>
    cases hr : r s with
    | some b =>
      rw [poll_succ_of_some hbody hr]
      refine iff_of_false (fun h => by cases h) fun ⟨_, hnone, _⟩ => ?_
      exact absurd (hr.symm.trans (hnone 0 (Nat.succ_pos n))) (Option.some_ne_none b)
    | none =>
      rw [poll_succ_of_none hbody hr, ih]
      refine and_congr_right fun _ => and_congr_left fun _ => ?_
      constructor
      · intro hall k hk
        cases k with
        | zero => exact hr
        | succ k => exact hall k (Nat.lt_of_succ_lt_succ hk)
      · exact fun hall k hk => hall (k + 1) (Nat.succ_lt_succ hk)

/-- The loop does one or the other. -/
theorem poll_cases (hbody : Returns body r next) (e : ε) (n : ℕ) (s : σ) :
    (∃ k < n, ∃ a, Answers r next s k a ∧ poll body e n s = .ok a (next^[k + 1] s)) ∨
      (∀ k < n, r (next^[k] s) = none) ∧ poll body e n s = .error e (next^[n] s) := by
  by_cases h : ∀ k < n, r (next^[k] s) = none
  · exact .inr ⟨h, (poll_error_iff hbody).mpr ⟨rfl, h, rfl⟩⟩
  · simp only [not_forall] at h
    obtain ⟨k, hk, hr⟩ := h
    obtain ⟨j, hj, a, ha⟩ := Answers.exists_le hr
    exact .inl ⟨j, Nat.lt_of_le_of_lt hj hk, a, ha,
      (poll_ok_iff hbody).mpr ⟨j, Nat.lt_of_le_of_lt hj hk, ha, rfl⟩⟩

/-- With room for it the loop returns the first answer. -/
theorem exists_poll_ok_iff (hbody : Returns body r next) :
    (∃ n t, poll body e n s = .ok a t) ↔ ∃ k, Answers r next s k a := by
  constructor
  · rintro ⟨n, t, h⟩
    obtain ⟨k, -, hk, -⟩ := (poll_ok_iff hbody).mp h
    exact ⟨k, hk⟩
  · rintro ⟨k, hk⟩
    exact ⟨k + 1, _, (poll_ok_iff hbody).mpr ⟨k, Nat.lt_succ_self k, hk, rfl⟩⟩

/-- It goes on past every bound exactly if no round answers. -/
theorem forall_poll_error_iff (hbody : Returns body r next) :
    (∀ n, ∃ t, poll body e n s = .error e t) ↔ ∀ k, r (next^[k] s) = none := by
  constructor
  · intro h k
    obtain ⟨t, ht⟩ := h (k + 1)
    exact ((poll_error_iff hbody).mp ht).2.1 k (Nat.lt_succ_self k)
  · exact fun h n => ⟨_, (poll_error_iff hbody).mpr ⟨rfl, fun k _ => h k, rfl⟩⟩

end Poll
