import HuskyKernel.Drivers.Command

/-!
# Drivers/Fis — what the FIS of an issued command says

The address and the sector count are split over bytes that do not lie in order, and lie on top of
what the region entries left.  A controller that puts them together finds the address and the count
`read` was called with (`fis_faithful`): the loop that was to use the count up never runs.
-/

namespace HuskyKernel

open Mem Wp

/-! ## Numbers in bytes -/

/-- The number that bytes spell, the least significant first. -/
def littleEndian : List Byte → ℕ
  | [] => 0
  | b :: bs => b.toNat + 256 * littleEndian bs

/-- The bytes of a word from byte `k` on. -/
def bytesFrom (w : Word) (k n : ℕ) : List Byte :=
  (List.range n).map fun i => byteAt w (8 * (k + i))

section LittleEndian

variable {w : Word} {k n : ℕ} {bs cs : List Byte}

theorem byteAt_toNat (w : Word) (k : ℕ) : (byteAt w k).toNat = w.toNat / 2 ^ k % 256 := by
  rw [byteAt, UInt8.toNat_ofBitVec, BitVec.toNat_setWidth, BitVec.toNat_ushiftRight,
    Nat.shiftRight_eq_div_pow]

theorem bytesFrom_succ : bytesFrom w k (n + 1) = byteAt w (8 * k) :: bytesFrom w (k + 1) n := by
  rw [bytesFrom, List.range_succ_eq_map, List.map_cons, List.map_map, bytesFrom, Nat.add_zero]
  refine congrArg _ (List.map_congr_left fun i _ => congrArg (byteAt w) ?_)
  rw [Nat.succ_eq_add_one]
  omega

/-- Bytes of a word spell what is left of it above byte `k`. -/
theorem littleEndian_bytesFrom (w : Word) (k n : ℕ) :
    littleEndian (bytesFrom w k n) = w.toNat / 256 ^ k % 256 ^ n := by
  induction n generalizing k with
  | zero => rw [pow_zero, Nat.mod_one, bytesFrom, List.range_zero, List.map_nil, littleEndian]
  | succ n ih =>
    rw [bytesFrom_succ, littleEndian, ih, byteAt_toNat, pow_mul, show 2 ^ 8 = 256 from rfl,
      pow_succ 256 k, ← Nat.div_div_eq_div_mul, pow_succ' 256 n, Nat.mod_mul]

theorem length_bytesFrom (w : Word) (k n : ℕ) : (bytesFrom w k n).length = n := by
  rw [bytesFrom, List.length_map, List.length_range]

theorem littleEndian_append :
    littleEndian (bs ++ cs) = littleEndian bs + 256 ^ bs.length * littleEndian cs := by
  induction bs with
  | nil => rw [List.nil_append, littleEndian, List.length_nil, pow_zero, one_mul, zero_add]
  | cons b bs ih =>
    rw [List.cons_append, littleEndian, littleEndian, ih, List.length_cons, pow_succ', mul_add,
      mul_assoc, add_assoc]

end LittleEndian

/-! ## Fields of a structure -/

namespace Stores

variable {s : Stores} {a x : Word} {k : ℕ} {b : Byte} {l : List (ℕ × Byte)}

theorem put_byte_self : (s.put a [b]).mem a = b := by
  have h : s.mem.store a [b] (a + BitVec.ofNat 32 0) = [b].getD 0 0 :=
    store_add Nat.one_le_two_pow Nat.zero_lt_one
  rwa [show a + BitVec.ofNat 32 0 = a from BitVec.add_zero a] at h

/-- Assigning other fields leaves a field alone. -/
theorem putBytes_of_notMem (hl : ∀ p ∈ l, p.1 < span) (hk : k < span)
    (h : k ∉ l.map Prod.fst) :
    (s.putBytes a l).mem (a + BitVec.ofNat 32 k) = s.mem (a + BitVec.ofNat 32 k) := by
  induction l generalizing s with
  | nil => rfl
  | cons p l ih =>
    rw [List.map_cons, List.mem_cons, not_or] at h
    refine (ih (fun q hq => hl q (List.mem_cons_of_mem _ hq)) h.2).trans ?_
    have hsize : [p.2].length ≤ span := Nat.one_le_two_pow
    refine put_mem_of_not_within hsize fun hin => h.1 ?_
    have hp := hl p List.mem_cons_self
    rw [Within, List.length_singleton] at hin
    rw [span] at hk hp
    bv_omega

/-- **Each field holds what was assigned to it**, if no field is assigned twice. -/
theorem putBytes_of_mem (hl : ∀ p ∈ l, p.1 < span) (hnodup : (l.map Prod.fst).Nodup)
    (h : (k, b) ∈ l) : (s.putBytes a l).mem (a + BitVec.ofNat 32 k) = b := by
  induction l generalizing s with
  | nil => exact absurd h List.not_mem_nil
  | cons p l ih =>
    rw [List.map_cons, List.nodup_cons] at hnodup
    have hl' : ∀ q ∈ l, q.1 < span := fun q hq => hl q (List.mem_cons_of_mem _ hq)
    rcases List.mem_cons.mp h with rfl | h
    · exact (putBytes_of_notMem hl' (hl _ List.mem_cons_self) hnodup.1).trans put_byte_self
    · exact ih hl' hnodup.2 h

end Stores

/-! ## The FIS, read off -/

/-- The address in the FIS at `tbl`: `lba0` to `lba5`. -/
def lba48 (m : Mem) (tbl : Word) : ℕ :=
  littleEndian ([4, 5, 6, 8, 9, 10].map fun k => m (tbl + BitVec.ofNat 32 k))

/-- The sector count in the FIS at `tbl`: `countl` and `counth`. -/
def sectors (m : Mem) (tbl : Word) : ℕ :=
  littleEndian ([12, 13].map fun k => m (tbl + BitVec.ofNat 32 k))

/-- The FIS at `tbl` is a READ DMA EXT command in LBA mode, for `count` sectors from
`starth:startl` on. -/
structure Requests (m : Mem) (tbl startl starth count : Word) : Prop where
  fisType : m tbl = 0x27
  command : m (tbl + 1) &&& 0x80 ≠ 0
  opcode : m (tbl + 2) = 0x25
  lbaMode : m (tbl + 7) &&& 0x40 ≠ 0
  lba : lba48 m tbl = starth.toNat * 2 ^ 32 + startl.toNat
  sectors : sectors m tbl = count.toNat % 65536

section Requests

variable {s : Stores} {tbl startl starth count : Word}

theorem or_command_ne_zero (b : Byte) : (b ||| 0x80) &&& 0x80 ≠ 0 := by
  intro h
  have hbit := congrArg (·.toBitVec.getLsbD 7) h
  simp at hbit

/-- The address bytes, put together. -/
theorem littleEndian_lba (startl starth : Word) (h : starth.toNat < 2 ^ 16) :
    littleEndian (bytesFrom startl 0 4 ++ bytesFrom starth 0 2) =
      starth.toNat * 2 ^ 32 + startl.toNat := by
  have hstartl := startl.isLt
  rw [littleEndian_append, littleEndian_bytesFrom, littleEndian_bytesFrom, length_bytesFrom,
    pow_zero, Nat.div_one, Nat.div_one]
  omega

/-- **The FIS `read` sets up asks for what `read` was called with.** -/
theorem requests_setFis (h : starth.toNat < 2 ^ 16) :
    Requests (setFis s tbl startl starth count).mem tbl startl starth count := by
  have hfield : ∀ {k : ℕ} {b : Byte}, (k, b) ∈ [(0, 0x27), (1, s.mem (tbl + 1) ||| 0x80),
      (2, 0x25), (4, byteAt startl 0), (5, byteAt startl 8), (6, byteAt startl 16), (7, 0x40),
      (8, byteAt startl 24), (9, byteAt starth 0), (10, byteAt starth 8), (12, byteAt count 0),
      (13, byteAt count 8)] →
      (setFis s tbl startl starth count).mem (tbl + BitVec.ofNat 32 k) = b :=
    fun hk => Stores.putBytes_of_mem (by simp [span]) (by simp) hk
  refine ⟨?_, ?_, hfield (k := 2) (by simp), ?_, ?_, ?_⟩
  · have h0 := hfield (k := 0) (b := 0x27) (by simp)
    rwa [show tbl + BitVec.ofNat 32 0 = tbl from BitVec.add_zero tbl] at h0
  · rw [show tbl + 1 = tbl + BitVec.ofNat 32 1 from rfl,
      hfield (k := 1) (b := s.mem (tbl + 1) ||| 0x80) (by simp)]
    exact or_command_ne_zero _
  · rw [show tbl + 7 = tbl + BitVec.ofNat 32 7 from rfl, hfield (k := 7) (b := 0x40) (by simp)]
    decide
  · rw [← littleEndian_lba startl starth h, lba48]
    refine congrArg littleEndian ?_
    simp only [List.map_cons, List.map_nil]
    rw [hfield (k := 4) (b := byteAt startl 0) (by simp),
      hfield (k := 5) (b := byteAt startl 8) (by simp),
      hfield (k := 6) (b := byteAt startl 16) (by simp),
      hfield (k := 8) (b := byteAt startl 24) (by simp),
      hfield (k := 9) (b := byteAt starth 0) (by simp),
      hfield (k := 10) (b := byteAt starth 8) (by simp)]
    rfl
  · have hcount := littleEndian_bytesFrom count 0 2
    rw [pow_zero, Nat.div_one] at hcount
    rw [sectors, ← show 256 ^ 2 = 65536 from rfl, ← hcount]
    refine congrArg littleEndian ?_
    simp only [List.map_cons, List.map_nil]
    rw [hfield (k := 12) (b := byteAt count 0) (by simp),
      hfield (k := 13) (b := byteAt count 8) (by simp)]
    rfl

end Requests

/-! ## A call of `read` -/

namespace Drv

variable {hw : Controller} {s : Hba} {slot fuel : ℕ} {startl starth count buf : Word} {m : Mem}

/-- **A command that `read` issues asks for the sectors `read` was called for**, and nothing is
stored after it. -/
theorem fis_faithful (hw : Controller) (fuel : ℕ) (startl starth count buf : Word) (s : Hba)
    (hstarth : starth.toNat < 2 ^ 16) (slot : ℕ) (m : Mem)
    (h : Issues hw fuel startl starth count buf s slot m) :
    Requests m (tableOf s.mem s.port.clb slot) startl starth count ∧
      (after (read hw fuel startl starth count buf) s).mem = m := by
  refine ⟨?_, mem_after_of_issues h⟩
  obtain rfl := eq_command_of_issues h
  rw [command, setupCommand_eq]
  exact requests_setFis hstarth

/-- 300 sectors from the 48-bit address `0xABCD12345678` on. -/
theorem fis_faithful_idle :
    Requests (command idleHba 0 0x12345678 0xABCD 300 0x500000).mem (tableOf idleHba.mem 0x400000 0)
      0x12345678 0xABCD 300 ∧
    (after (read idlePort 1 0x12345678 0xABCD 300 0x500000) idleHba).mem =
      (command idleHba 0 0x12345678 0xABCD 300 0x500000).mem :=
  fis_faithful idlePort 1 0x12345678 0xABCD 300 0x500000 idleHba (by decide) 0 _
    (issues_idle 1 0x12345678 0xABCD 300 0x500000)

end Drv

end HuskyKernel
