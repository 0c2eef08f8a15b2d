import Mathlib.Data.BitVec

/-!
# Logic/Span — ranges of addresses that may wrap around

`Within a n x`: the address `x` is one of the `n` from `a` on, counting past the top of the address
space.  For a range that does not wrap this is a pair of inequalities (`Within.iff`), so what two
ranges share is linear arithmetic.
-/

variable {w : ℕ} {a b x : BitVec w} {n m k : ℕ}

/-- `x` is one of the `n` addresses from `a` on. -/
def Within (a : BitVec w) (n : ℕ) (x : BitVec w) : Prop := (x - a).toNat < n

instance : Decidable (Within a n x) := inferInstanceAs (Decidable ((x - a).toNat < n))

namespace Within

/-- **A range that does not wrap** is an interval. -/
theorem iff (h : a.toNat + n ≤ 2 ^ w) :
    Within a n x ↔ a.toNat ≤ x.toNat ∧ x.toNat < a.toNat + n := by
  have hx := x.isLt
  rw [Within, BitVec.toNat_sub]
  by_cases hle : a.toNat ≤ x.toNat
  · have hsum : 2 ^ w - a.toNat + x.toNat = (x.toNat - a.toNat) + 2 ^ w := by omega
    rw [hsum, Nat.add_mod_right, Nat.mod_eq_of_lt (by omega)]
    omega
  · rw [Nat.mod_eq_of_lt (by omega)]
    omega

theorem start (h : 0 < n) : Within a n a := by
  rwa [Within, BitVec.sub_self, BitVec.toNat_zero]

theorem mono (h : Within a n x) (hnm : n ≤ m) : Within a m x := Nat.lt_of_lt_of_le h hnm

/-- The address `k` steps into a range. -/
theorem add (hk : k < n) : Within a n (a + BitVec.ofNat w k) := by
  rw [Within, BitVec.add_comm, BitVec.add_sub_cancel, BitVec.toNat_ofNat]
  exact Nat.lt_of_le_of_lt (Nat.mod_le _ _) hk

/-- The addresses of a range, by their distance from its start. -/
theorem add_ofNat_iff (hk : k < 2 ^ w) : Within a n (a + BitVec.ofNat w k) ↔ k < n := by
  rw [Within, BitVec.add_comm, BitVec.add_sub_cancel, BitVec.toNat_ofNat, Nat.mod_eq_of_lt hk]

/-- A range inside another one. -/
theorem of_add (h : Within (a + BitVec.ofNat w k) m x) (hkm : k + m ≤ n) : Within a n x := by
  rw [Within] at *
  have hsum : x - a = (x - (a + BitVec.ofNat w k)) + BitVec.ofNat w k := by
    rw [sub_add_eq_sub_sub, sub_add_cancel]
  rw [hsum, BitVec.toNat_add, BitVec.toNat_ofNat]
  have hmod : k % 2 ^ w ≤ k := Nat.mod_le _ _
  exact Nat.lt_of_le_of_lt (Nat.mod_le _ _) (by omega)

theorem of_succ (h : Within (a + 1) n x) : Within a (n + 1) x :=
  of_add (k := 1) h (Nat.add_comm 1 n).le

/-- A range inside the address space, in steps from `a`. -/
theorem add_iff (h : k + n ≤ 2 ^ w) :
    Within (a + BitVec.ofNat w k) n x ↔ k ≤ (x - a).toNat ∧ (x - a).toNat < k + n := by
  rcases Nat.eq_zero_or_pos n with rfl | hn
  · exact ⟨fun hx => absurd hx (Nat.not_lt_zero _), fun hx => by omega⟩
  · have hk : (BitVec.ofNat w k).toNat = k := by
      rw [BitVec.toNat_ofNat]
      exact Nat.mod_eq_of_lt (by omega)
    have hsub : Within (a + BitVec.ofNat w k) n x ↔ Within (BitVec.ofNat w k) n (x - a) := by
      rw [Within, Within, sub_add_eq_sub_sub]
    rw [hsub, iff (by rwa [hk]), hk]

end Within
