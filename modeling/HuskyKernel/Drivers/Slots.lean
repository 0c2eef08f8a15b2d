import HuskyKernel.Drivers.Command

/-!
# Drivers/Slots — which slot `find_cmdslot` finds

The bound of its loop is the mask it shifts: a clear bit `k` is found only while `k` is below what
is left of the mask there (`scanSlots_iff`).  An idle port leaves nothing — the mask is 0 and the
loop does not start (`findCmdslot_iff`).
-/

namespace HuskyKernel

/-! ## The slots of a port -/

/-- Slot `k` is free, and none below it. -/
structure LeastFree (slots : Word) (k : ℕ) : Prop where
  lt : k < 32
  free : slots.getLsbD k = false
  taken : ∀ i < k, slots.getLsbD i = true

/-- No slot is free. -/
def Full (slots : Word) : Prop := ∀ i < 32, slots.getLsbD i = true

/-- The least free slot, or `-1` if there is none. -/
def RightSlot (slots : Word) (r : Option ℕ) : Prop :=
  (∀ k, r = some k ↔ LeastFree slots k) ∧ (r = none ↔ Full slots)

section Slots

variable {slots : Word} {k k' i : ℕ}

theorem LeastFree.unique (h : LeastFree slots k) (h' : LeastFree slots k') : k = k' := by
  rcases Nat.lt_trichotomy k k' with hlt | heq | hlt
  · exact absurd (h.free.symm.trans (h'.taken k hlt)) Bool.false_ne_true
  · exact heq
  · exact absurd (h'.free.symm.trans (h.taken k' hlt)) Bool.false_ne_true

theorem LeastFree.not_full (h : LeastFree slots k) : ¬ Full slots := fun hfull =>
  absurd (h.free.symm.trans (hfull k h.lt)) Bool.false_ne_true

/-- If not all slots are taken one of them is the least free. -/
theorem exists_leastFree (h : ¬ Full slots) : ∃ k, LeastFree slots k := by
  simp only [Full, not_forall, exists_prop, Bool.not_eq_true] at h
  have hfind := Nat.find_spec h
  refine ⟨Nat.find h, hfind.1, hfind.2, fun i hi => ?_⟩
  have hmin := Nat.find_min h hi
  rw [not_and, Bool.not_eq_false] at hmin
  exact hmin (hi.trans hfind.1)

/-! ## The loop -/

theorem shift_and_one : slots >>> i &&& 1 = 0 ↔ slots.getLsbD i = false := by
  constructor
  · intro h
    have hbit := congrArg (·.getLsbD 0) h
    simpa using hbit
  · intro h
    apply BitVec.eq_of_getLsbD_eq
    intro j hj
    by_cases hj0 : j = 0
    · subst hj0
      simpa using h
    · simp [BitVec.getLsbD_one, hj0]

/-- What is left of the mask shrinks. -/
theorem shift_anti (hik : i ≤ k) : (slots >>> k).toNat ≤ (slots >>> i).toNat := by
  rw [BitVec.toNat_ushiftRight, BitVec.toNat_ushiftRight, Nat.shiftRight_eq_div_pow,
    Nat.shiftRight_eq_div_pow]
  exact Nat.div_le_div_left (Nat.pow_le_pow_right (by decide) hik) (Nat.two_pow_pos i)

/-- **From round `i` on the loop finds the next clear bit `k`, if `k` is below what is then left of
the mask** — induction on the rounds. -/
theorem scanSlots_iff {n : ℕ} (hn : n + i = 33) : scanSlots n i (slots >>> i) = some k ↔
    i ≤ k ∧ slots.getLsbD k = false ∧ (∀ j, i ≤ j → j < k → slots.getLsbD j = true) ∧
      k < (slots >>> k).toNat := by
  induction n generalizing i with
  | zero =>
    refine ⟨fun h => absurd h (Option.some_ne_none k).symm, fun ⟨hik, _, _, hlt⟩ => ?_⟩
    have hzero : (slots >>> k).toNat = 0 := by
      rw [BitVec.toNat_ushiftRight, Nat.shiftRight_eq_div_pow]
      refine Nat.div_eq_of_lt (slots.isLt.trans_le (Nat.pow_le_pow_right (by decide) ?_))
      omega
    omega
  | succ n ih =>
    rw [scanSlots]
    by_cases hlt : i < (slots >>> i).toNat
    · rw [if_pos hlt]
      by_cases hbit : slots >>> i &&& 1 = 0
      · rw [if_pos hbit, Option.some_inj]
        rw [shift_and_one] at hbit
        constructor
        · rintro rfl
          exact ⟨Nat.le_refl _, hbit, fun j hij hji => absurd hij (Nat.not_le.mpr hji), hlt⟩
        · rintro ⟨hik, -, htaken, -⟩
          rcases Nat.eq_or_lt_of_le hik with heq | hik
          · exact heq
          · exact absurd (hbit.symm.trans (htaken i (Nat.le_refl _) hik)) Bool.false_ne_true
      · rw [if_neg hbit, ← BitVec.shiftRight_add, ih (by omega)]
        rw [shift_and_one, Bool.not_eq_false] at hbit
        constructor
        · rintro ⟨hik, hfree, htaken, hk⟩
          refine ⟨(Nat.le_succ i).trans hik, hfree, fun j hij hjk => ?_, hk⟩
          rcases Nat.eq_or_lt_of_le hij with rfl | hij
          · exact hbit
          · exact htaken j hij hjk
        · rintro ⟨hik, hfree, htaken, hk⟩
          refine ⟨Nat.lt_of_le_of_ne hik ?_, hfree, fun j hij => htaken j (Nat.le_of_succ_le hij),
            hk⟩
          rintro rfl
          exact absurd (hfree.symm.trans hbit) Bool.false_ne_true
    · rw [if_neg hlt]
      refine ⟨fun h => absurd h (Option.some_ne_none k).symm, fun ⟨hik, _, _, hk⟩ => ?_⟩
      have hle : (slots >>> k).toNat ≤ (slots >>> i).toNat := shift_anti hik
      omega

/-- **The loop finds the least free slot `k` if `k` is below the mask shifted by `k`**, and nothing
otherwise. -/
theorem scanSlots_eq_some :
    scanSlots 33 0 slots = some k ↔ LeastFree slots k ∧ k < (slots >>> k).toNat := by
  have hzero : slots = slots >>> 0 := (BitVec.ushiftRight_zero slots).symm
  rw [hzero, scanSlots_iff (by decide), ← hzero]
  constructor
  · rintro ⟨-, hfree, htaken, hlt⟩
    refine ⟨⟨?_, hfree, fun i hi => htaken i (Nat.zero_le i) hi⟩, hlt⟩
    by_contra hge
    have hle : (slots >>> k).toNat ≤ (slots >>> 32).toNat := shift_anti (Nat.not_lt.mp hge)
    have hnone : (slots >>> 32).toNat = 0 := by
      rw [BitVec.toNat_ushiftRight, Nat.shiftRight_eq_div_pow]
      exact Nat.div_eq_of_lt slots.isLt
    omega
  · rintro ⟨⟨_, hfree, htaken⟩, hlt⟩
    exact ⟨Nat.zero_le k, hfree, fun i _ hi => htaken i hi, hlt⟩

/-- Taken, all of them, or the least free one found. -/
theorem rightSlot_iff : RightSlot slots (scanSlots 33 0 slots) ↔
    Full slots ∨ ∃ k, LeastFree slots k ∧ k < (slots >>> k).toNat := by
  by_cases hfull : Full slots
  · refine iff_of_true ⟨fun k => ?_, ?_⟩ (Or.inl hfull)
    · exact iff_of_false (fun h => (scanSlots_eq_some.mp h).1.not_full hfull)
        fun h => h.not_full hfull
    · refine iff_of_true ?_ hfull
      exact Option.eq_none_iff_forall_ne_some.mpr fun k h =>
        (scanSlots_eq_some.mp h).1.not_full hfull
  · obtain ⟨k, hk⟩ := exists_leastFree hfull
    constructor
    · rintro ⟨hsome, -⟩
      exact Or.inr ⟨k, scanSlots_eq_some.mp ((hsome k).mpr hk)⟩
    · rintro (hfull' | ⟨k', hk'⟩)
      · exact absurd hfull' hfull
      · rw [scanSlots_eq_some.mpr hk']
        refine ⟨fun j => ⟨?_, fun hj => ?_⟩, iff_of_false (Option.some_ne_none k') hfull⟩
        · rintro ⟨⟩
          exact hk'.1
        · rw [hk'.1.unique hj]

end Slots

/-! ## `find_cmdslot` -/

namespace Drv

/-- The slots taken, as `find_cmdslot` called in `s` reads them: `sact | ci`. -/
def takenSlots (hw : Controller) (s : Hba) : Word :=
  hw s.log .sact ||| hw (s.log ++ [.read .sact]) .ci

/-- **`find_cmdslot` returns the least free slot, or -1 if there is none, exactly if all are taken
or the least free one is below the mask shifted by it.** -/
theorem findCmdslot_iff (hw : Controller) (s : Hba) :
    ∃ r t, findCmdslot hw s = .ok r t ∧ (RightSlot (takenSlots hw s) r ↔
      Full (takenSlots hw s) ∨
        ∃ k, LeastFree (takenSlots hw s) k ∧ k < (takenSlots hw s >>> k).toNat) := by
  obtain ⟨t, ht, -⟩ := findCmdslot_returns hw (fun _ => True) s
  exact ⟨_, t, ht, rightSlot_iff⟩

/-- On an idle port there is no slot for `read`. -/
theorem not_findCmdslot_idle : ¬ ∀ (hw : Controller) (s : Hba),
    ∃ r t, findCmdslot hw s = .ok r t ∧ RightSlot (takenSlots hw s) r := by
  intro hall
  obtain ⟨r, t, hr, hright⟩ := hall (fun _ _ => 0) ⟨⟨0, 0, 0, 0⟩, fun _ => 0, [], []⟩
  obtain ⟨t', hr', -⟩ := findCmdslot_returns (fun _ _ => 0) (fun _ => True)
    ⟨⟨0, 0, 0, 0⟩, fun _ => 0, [], []⟩
  obtain rfl : none = r := by
    rw [hr] at hr'
    injection hr' with hr'
    exact hr'.symm
  exact Bool.false_ne_true (hright.2.mp rfl 0 (by decide))

end Drv

end HuskyKernel
