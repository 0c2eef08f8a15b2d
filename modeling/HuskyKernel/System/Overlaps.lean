import HuskyKernel.System.Words

/-!
# System/Overlaps — when `strcpy` ends

`strcpy` stops at the NUL of its source, if it gets there.  A destination that starts behind the
first byte of the source, and not behind its NUL, is stored to before it is read: the NUL is gone by
the time the loop comes to it, and the loop goes round the address space for ever.  That is the
only way (`strcpy_eq`).
-/

namespace HuskyKernel

namespace Mem

variable {m : Mem} {a dest src : Word} {n : ℕ} {bs : List Byte}

/-- `dest` is not inside a string of `n` bytes at `src`, behind its first byte. -/
def Clear (dest src : Word) (n : ℕ) : Prop := dest = src ∨ n < (dest - src).toNat

instance {dest src : Word} {n : ℕ} : Decidable (Clear dest src n) :=
  inferInstanceAs (Decidable (_ ∨ _))

/-! ## Without a NUL -/

/-- No string at `a`: no NUL in the whole walk. -/
theorem cstrN_eq_none : m.cstrN a n = none ↔ ∀ k < n, m (a + BitVec.ofNat 32 k) ≠ 0 := by
  induction n generalizing a with
  | zero => exact iff_of_true rfl fun k hk => absurd hk (Nat.not_lt_zero k)
  | succ n ih =>
    have hstart : a + BitVec.ofNat 32 0 = a := BitVec.add_zero a
    rw [Nat.forall_lt_succ_left, hstart, cstrN]
    simp only [add_ofNat_succ, ← ih]
    by_cases h0 : m a = 0 <;> simp [h0]

/-- The walk is round the whole address space. -/
theorem cstr?_eq_none : m.cstr? a = none ↔ ∀ x, m x ≠ 0 := by
  refine cstrN_eq_none.trans ⟨fun h x => ?_, fun h k _ => h _⟩
  have hx := h (x - a).toNat (x - a).isLt
  rwa [BitVec.ofNat_toNat, BitVec.setWidth_eq, BitVec.add_comm, BitVec.sub_add_cancel] at hx

/-- In front of its NUL a string has none. -/
theorem ne_zero_of_cstr? {x : Word} (ht : m.cstr? a = some bs) (hx : Within a bs.length x) :
    m x ≠ 0 := by
  obtain ⟨hz, -, hholds⟩ := cstr?_eq_some.mp ht
  have hlast : (x - a).toNat < (bs ++ [0]).length := by
    rw [List.length_append]
    exact Nat.lt_succ_of_lt hx
  have hbyte := getD_load (m := m) a hlast
  rw [show m.load a _ = _ from hholds, List.getD_append _ _ _ _ hx, List.getD_eq_getElem _ _ hx,
    BitVec.ofNat_toNat, BitVec.setWidth_eq, BitVec.add_comm, BitVec.sub_add_cancel] at hbyte
  exact hbyte ▸ fun h0 => hz (h0 ▸ List.getElem_mem hx)

theorem strcpyN_of_ne_zero (h : ∀ x, m x ≠ 0) : m.strcpyN dest src n = none := by
  induction n generalizing m dest src with
  | zero => rfl
  | succ n ih =>
    rw [strcpyN, if_neg (h src)]
    refine ih fun x => ?_
    rw [poke, Function.update_apply]
    split
    · exact h src
    · exact h x

/-! ## Into itself -/

/-- What lies before the destination is copied over and over. -/
theorem strcpyN_eq_none (hpos : 0 < (dest - src).toNat)
    (h : ∀ x, Within src (dest - src).toNat x → m x ≠ 0) : m.strcpyN dest src n = none := by
  induction n generalizing m dest src with
  | zero => rfl
  | succ n ih =>
    have hsrc : m src ≠ 0 := h src (Within.start hpos)
    have hsub : dest + 1 - (src + 1) = dest - src := by bv_omega
    rw [strcpyN, if_neg hsrc]
    refine ih (hsub.symm ▸ hpos) fun x hx => ?_
    rw [hsub] at hx
    rw [poke, Function.update_apply]
    split
    · exact hsrc
    · refine h x ?_
      rw [Within] at hx ⊢
      bv_omega

/-- Copied anywhere else, the string ahead stays what it is. -/
theorem strcpyN_of_clear (hn : n ≤ span) (ht : m.cstrN src n = some bs)
    (h : Clear dest src bs.length) : m.strcpyN dest src n = some (m.store dest (bs ++ [0])) := by
  induction n generalizing m dest src bs with
  | zero => cases ht
  | succ n ih =>
    rw [cstrN] at ht
    by_cases h0 : m src = 0
    · rw [if_pos h0] at ht
      obtain rfl := Option.some.inj ht
      rw [strcpyN, if_pos h0]
      rfl
    · rw [if_neg h0, Option.map_eq_some_iff] at ht
      obtain ⟨cs, hcs, rfl⟩ := ht
      have hlen := (cstrN_eq_some.mp hcs).2.1
      have hsub : dest + 1 - (src + 1) = dest - src := by bv_omega
      rw [Clear, List.length_cons, ← hsub] at h
      rw [strcpyN, if_neg h0]
      refine ih (Nat.le_of_succ_le hn) (cstrN_congr hcs fun x hx => ?_) ?_
      · rcases h with rfl | h
        · exact congrFun (Function.update_eq_self ..) x
        · refine Function.update_of_ne ?_ ..
          rw [Within] at hx
          rw [span] at hn
          bv_omega
      · exact h.imp (congrArg (· + 1)) (Nat.lt_of_succ_lt ·)

/-- **What `strcpy` does**: it stores the string it finds, unless it copies it into itself. -/
theorem strcpy_eq (m : Mem) (dest src : Word) : m.strcpy dest src =
    (m.cstr? src).bind fun bs =>
      if Clear dest src bs.length then some (m.store dest (bs ++ [0])) else none := by
  cases ht : m.cstr? src with
  | none => exact strcpyN_of_ne_zero (cstr?_eq_none.mp ht)
  | some bs =>
    rw [Option.bind_some]
    split_ifs with hclear
    · exact strcpyN_of_clear le_rfl ht hclear
    · obtain ⟨hne, hle⟩ := not_or.mp hclear
      refine strcpyN_eq_none (by bv_omega) fun x hx => ?_
      exact ne_zero_of_cstr? ht (hx.mono (not_lt.mp hle))

theorem strcpy_isSome_iff :
    (m.strcpy dest src).isSome ↔ ∃ bs ∈ m.cstr? src, Clear dest src bs.length := by
  rw [strcpy_eq]
  cases m.cstr? src with
  | none => simp
  | some bs => by_cases hclear : Clear dest src bs.length <;> simp [hclear]

/-- `strcat` copies to the end of a string. -/
theorem strcat_eq {ds : List Byte} (hd : m.cstr? dest = some ds) : m.strcat dest src =
    m.strcpy (dest + BitVec.ofNat 32 ds.length) src := by
  rw [strcat, hd, Option.bind_some]

/-- **When `strcpy` and `strcat` end**, one after the other. -/
theorem strcpy_strcat_isSome_iff {b : Word} {ds : List Byte} (hd : m.cstr? src = some ds) :
    ((m.strcpy dest src).bind fun m' => m'.strcat dest b).isSome ↔
      Clear dest src ds.length ∧ ∃ bs ∈ (m.store dest (ds ++ [0])).cstr? b,
        Clear (dest + BitVec.ofNat 32 ds.length) b bs.length := by
  obtain ⟨hz, hlen, -⟩ := cstr?_eq_some.mp hd
  rw [strcpy_eq, hd, Option.bind_some]
  split_ifs with hclear
  · rw [Option.bind_some, strcat_eq (cstr?_store m dest hz hlen), strcpy_isSome_iff]
    exact (and_iff_right hclear).symm
  · exact iff_of_false Bool.false_ne_true fun h => hclear h.1

end Mem

end HuskyKernel
