import Mathlib.Data.BitVec

/-!
# Logic/Walk — walking through memory in strides

`for (; n > 0; n--, a += stride) if (P(a)) …` looks at `a`, `a + stride`, …, and what it does at the
first hit is what it does: `Walk.eq_hit`.  Without one it goes all the way (`Walk.eq_end`).
-/

variable {w : ℕ} {β : Type*} {P : BitVec w → Prop} {stride n k : ℕ} {walk hit : ℕ → BitVec w → β}
  {a : BitVec w}

/-- `walk n a` looks for a hit in `n` rounds, from `a` on; with `n` rounds left after that one,
`hit n` is what it does. -/
structure Walk (P : BitVec w → Prop) (stride : ℕ) (walk hit : ℕ → BitVec w → β) : Prop where
  hit : ∀ n a, P a → walk (n + 1) a = hit n a
  miss : ∀ n a, ¬ P a → walk (n + 1) a = walk n (a + BitVec.ofNat w stride)

namespace Walk

/-- One stride more. -/
theorem add_succ (stride i : ℕ) (a : BitVec w) : a + BitVec.ofNat w (stride * (i + 1)) =
    a + BitVec.ofNat w stride + BitVec.ofNat w (stride * i) := by
  rw [Nat.mul_add, Nat.mul_one, Nat.add_comm, BitVec.ofNat_add, ← BitVec.add_assoc]

theorem add_zero (stride : ℕ) (a : BitVec w) : a + BitVec.ofNat w (stride * 0) = a :=
  BitVec.add_zero a

/-- **The walk ends at the first hit.** -/
theorem eq_hit (h : Walk P stride walk hit) : ∀ {n k : ℕ} {a : BitVec w}, k < n →
    (∀ i < k, ¬ P (a + BitVec.ofNat w (stride * i))) → P (a + BitVec.ofNat w (stride * k)) →
    walk n a = hit (n - k - 1) (a + BitVec.ofNat w (stride * k))
  | n + 1, 0, a, _, _, hk => by
      rw [add_zero] at hk ⊢
      exact h.hit n a hk
  | n + 1, k + 1, a, hlt, hfirst, hk => by
      have hmiss := hfirst 0 (Nat.succ_pos k)
      rw [add_zero] at hmiss
      rw [add_succ] at hk
      rw [h.miss n a hmiss, eq_hit h (Nat.lt_of_succ_lt_succ hlt) (fun i hi => ?_) hk, add_succ,
        Nat.add_sub_add_right]
      rw [← add_succ]
      exact hfirst (i + 1) (Nat.succ_lt_succ hi)

/-- Without a hit, it comes to its end. -/
theorem eq_end (h : Walk P stride walk hit) : ∀ {n : ℕ} {a : BitVec w},
    (∀ i < n, ¬ P (a + BitVec.ofNat w (stride * i))) →
    walk n a = walk 0 (a + BitVec.ofNat w (stride * n))
  | 0, a, _ => by rw [add_zero]
  | n + 1, a, hnone => by
      have hmiss := hnone 0 (Nat.succ_pos n)
      rw [add_zero] at hmiss
      rw [h.miss n a hmiss, eq_end h (fun i hi => ?_), add_succ]
      rw [← add_succ]
      exact hnone (i + 1) (Nat.succ_lt_succ hi)

end Walk
