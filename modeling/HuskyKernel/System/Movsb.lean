import HuskyKernel.System.Strings

/-!
# System/Movsb — `rep movsb`, and what `memcpy` returns

`memcpy` is one string instruction.  Its three operands are bound as in-out, so the variable
`dest` is what the instruction leaves in `edi`: the memory is as it should be (`memcpy_memory`), and
what is returned is the address behind the copy (`memcpy_returns`).
-/

namespace HuskyKernel

open Mem

/-- Memory, and the registers of a string instruction. -/
structure Movsb where
  mem : Mem
  edi : Word
  esi : Word
  ecx : Word

namespace Movsb

/-! ## The instruction -/

/-- `movsb`, with the direction flag clear, and the count of `rep`. -/
def step (s : Movsb) : Movsb where
  mem := s.mem.poke s.edi (s.mem s.esi)
  edi := s.edi + 1
  esi := s.esi + 1
  ecx := s.ecx - 1

theorem step_ecx_lt {s : Movsb} (h : s.ecx ≠ 0) : s.step.ecx.toNat < s.ecx.toNat := by
  rw [show s.step.ecx = s.ecx - 1 from rfl]
  bv_omega

/-- `rep movsb`: until `ecx` is zero. -/
def rep (s : Movsb) : Movsb := if s.ecx = 0 then s else s.step.rep
termination_by s.ecx.toNat
decreasing_by exact step_ecx_lt ‹_›

/-- **`memcpy`**: the memory it leaves, and `dest`. -/
def memcpy (m : Mem) (dest src n : Word) : Mem × Word :=
  let s := rep { mem := m, edi := dest, esi := src, ecx := n }
  (s.mem, s.edi)

/-! ## What it leaves -/

/-- Before a count of zero nothing is done. -/
theorem rep_of_eq {s : Movsb} (h : s.ecx = 0) : s.rep = s := by rw [rep, if_pos h]

/-- One round. -/
theorem rep_of_ne {s : Movsb} (h : s.ecx ≠ 0) : s.rep = s.step.rep := by rw [rep, if_neg h]

/-- **The registers and the memory behind `rep movsb`.** -/
theorem rep_eq (k : ℕ) (s : Movsb) (h : s.ecx.toNat = k) : s.rep =
    { mem := s.mem.memcpy s.edi s.esi k, edi := s.edi + BitVec.ofNat 32 k,
      esi := s.esi + BitVec.ofNat 32 k, ecx := 0 } := by
  induction k generalizing s with
  | zero =>
    have hecx : s.ecx = 0 := BitVec.toNat_inj.mp h
    rw [rep_of_eq hecx, BitVec.add_zero, BitVec.add_zero, ← hecx]
    rfl
  | succ k ih =>
    have hecx : s.ecx ≠ 0 := by bv_omega
    have hstep : s.step.ecx.toNat = k := by
      rw [show s.step.ecx = s.ecx - 1 from rfl]
      bv_omega
    rw [rep_of_ne hecx, ih s.step hstep, add_ofNat_succ, add_ofNat_succ]
    rfl

variable {m : Mem} {dest src n : Word}

/-- **The memory** is that of a copy upwards, byte by byte. -/
theorem memcpy_memory : (memcpy m dest src n).1 = m.memcpy dest src n.toNat := by
  rw [memcpy, rep_eq n.toNat _ rfl]

/-- **What is returned** is the address behind the copy. -/
theorem memcpy_returns : (memcpy m dest src n).2 = dest + n := by
  rw [memcpy, rep_eq n.toNat _ rfl, BitVec.ofNat_toNat, BitVec.setWidth_eq]

/-! ## The contract -/

/-- What a `memcpy` to `dest` makes of the memory, and what it answers. -/
structure Contract (m : Mem) (dest src n : Word) (r : Mem × Word) : Prop where
  copied : ∀ k < n.toNat, r.1 (dest + BitVec.ofNat 32 k) = m (src + BitVec.ofNat 32 k)
  frame : ∀ x, ¬ Within dest n.toNat x → r.1 x = m x
  returns : r.2 = dest

/-- **Of two ranges that do not overlap**, the one is copied to the other, and nothing else
changes. -/
theorem memcpy_copies (h : Apart src dest n.toNat) :
    (∀ k < n.toNat, (memcpy m dest src n).1 (dest + BitVec.ofNat 32 k)
      = m (src + BitVec.ofNat 32 k)) ∧
    ∀ x, ¬ Within dest n.toNat x → (memcpy m dest src n).1 x = m x := by
  have hlen : (m.load src n.toNat).length ≤ span := by
    rw [length_load]
    exact n.isLt.le
  rw [memcpy_memory, memcpy_eq_store h]
  refine ⟨fun k hk => ?_, fun x hx => store_of_not_within hlen (by rwa [length_load])⟩
  rw [store_add hlen (by rwa [length_load]), getD_load src hk]

/-- **The contract is kept by the empty copy only**: any other leaves `dest` behind what it
copied. -/
theorem memcpy_contract_iff (h : Apart src dest n.toNat) :
    Contract m dest src n (memcpy m dest src n) ↔ n = 0 := by
  have hret : (memcpy m dest src n).2 = dest ↔ n = 0 := by
    rw [memcpy_returns]
    exact BitVec.add_right_eq_self
  exact ⟨fun hc => hret.mp hc.returns,
    fun h0 => ⟨(memcpy_copies h).1, (memcpy_copies h).2, hret.mpr h0⟩⟩

/-- Three characters are copied. -/
theorem memcpy_contract_iff_three :
    ¬ Contract (fun _ => 0) 0x2000 0x1000 3 (memcpy (fun _ => 0) 0x2000 0x1000 3) := by
  have happ : Apart 0x1000 0x2000 (3 : Word).toNat := by
    intro x hx hx'
    rw [Within] at hx hx'
    bv_omega
  exact fun hc => absurd ((memcpy_contract_iff happ).mp hc) (by decide)

/-- **One byte is enough**: `dest` comes back moved. -/
theorem memcpy_one : (∀ x, Within 0x1000 1 x → ¬ Within (0x2000 : Word) 1 x) ∧
    ¬ Contract (fun _ => 0) 0x2000 0x1000 1 (memcpy (fun _ => 0) 0x2000 0x1000 1) := by
  refine ⟨fun x hx hx' => ?_, fun hc => absurd hc.returns ?_⟩
  · rw [Within] at hx hx'
    bv_omega
  · rw [memcpy_returns]
    decide

end Movsb

end HuskyKernel
