import HuskyKernel.Logic.Arena
import Mathlib.Data.BitVec

/-!
# System/Heap — the bump allocator `malloc`

`heap_index` is a `size_t`, 32 bits wide, and the limit test of `malloc` adds two of them.  A run
of the allocator is a list of operations; `calls` is what its `malloc` calls were asked for and
answered.  `sound_iff`: the answers are sound — every block inside `heap[]`, no two overlapping —
exactly as long as no call makes that addition wrap.  The sound direction is a simulation by an
`Arena`.
-/

namespace HuskyKernel

/-- A machine word: `size_t`, `int`, and every pointer, on this target. -/
abbrev Word := BitVec 32

/-- `HEAP_SIZE`. -/
def heapSize : Word := 0x100000#32

/-- Where the linker put `heap[HEAP_SIZE]`: above address 0, its end still an address. -/
structure HeapArray where
  base : Word
  base_pos : 0 < base.toNat
  fits : base.toNat + heapSize.toNat < 2 ^ 32

/-- `malloc`: the pointer it returns, `0` for NULL, and the new `heap_index`. -/
def malloc (heap : HeapArray) (size heapIndex : Word) : Word × Word :=
  if heapIndex + size > heapSize then (0, heapIndex)
  else (heap.base + heapIndex, heapIndex + size)

/-- `free` is a no-op in a bump allocator. -/
def free (_ptr heapIndex : Word) : Word := heapIndex

namespace Heap

/-- The two operations of the allocator. -/
inductive Op where
  | malloc (size : Word)
  | free (ptr : Word)
deriving DecidableEq, Repr

/-- One `malloc` call: what it was asked for, what it returned, and `heap_index` around it. -/
structure Call where
  size : Word
  result : Word
  before : Word
  after : Word
deriving DecidableEq, Repr

/-- The `malloc` calls of a run from `heap_index = i`. -/
def calls (heap : HeapArray) : Word → List Op → List Call
  | _, [] => []
  | i, .malloc n :: ops =>
      ⟨n, (malloc heap n i).1, i, (malloc heap n i).2⟩ :: calls heap (malloc heap n i).2 ops
  | i, .free p :: ops => calls heap (HuskyKernel.free p i) ops

/-- The block a call handed out; a NULL result hands out none. -/
def Call.block? (c : Call) : Option Block :=
  if c.result = 0 then none else some ⟨c.result.toNat, c.size.toNat⟩

/-- The blocks handed out in a run. -/
def blocks (cs : List Call) : List Block := cs.filterMap Call.block?

/-- The limit test of this call did not wrap. -/
def Call.NoWrap (c : Call) : Prop := c.before.toNat + c.size.toNat < 2 ^ 32

/-- What callers rely on over a whole run. -/
structure Sound (heap : HeapArray) (cs : List Call) : Prop where
  index_le : ∀ c ∈ cs, c.after ≤ heapSize
  inside : ∀ b ∈ blocks cs, b.Inside heap.base.toNat (heap.base.toNat + heapSize.toNat)
  apart : (blocks cs).Pairwise Block.Apart
  null : ∀ c ∈ cs, c.result = 0 → c.after = c.before

/-! ## One call

The call's answer depends on whether the wrapped sum passes the limit test.  Without a wrap the sum
is the sum, and the call is an `Arena.alloc`; with one the test sees a small number and the call
hands out a block that leaves `heap[]` behind. -/

section Malloc

variable {heap : HeapArray} {n i : Word}

theorem malloc_of_gt (h : i + n > heapSize) : malloc heap n i = (0, i) := if_pos h

theorem malloc_of_le (h : ¬ i + n > heapSize) : malloc heap n i = (heap.base + i, i + n) :=
  if_neg h

/-- An address inside `heap[]` is computed without wrapping. -/
theorem toNat_base_add (hi : i ≤ heapSize) :
    (heap.base + i).toNat = heap.base.toNat + i.toNat := by
  have := heap.fits
  bv_omega

/-- …and is not NULL. -/
theorem base_add_ne_zero (hi : i ≤ heapSize) : heap.base + i ≠ 0 := by
  intro h0
  have hpos := heap.base_pos
  have hadd : (heap.base + i).toNat = _ := toNat_base_add hi
  rw [h0, show (0 : Word).toNat = 0 from rfl] at hadd
  omega

theorem malloc_snd_le (hi : i ≤ heapSize) : (malloc heap n i).2 ≤ heapSize := by
  by_cases h : i + n > heapSize
  · rwa [malloc_of_gt h]
  · rw [malloc_of_le h]
    exact BitVec.not_lt.mp h

/-- A block is handed out exactly if there is room for it, unless the limit test wraps. -/
theorem malloc_ne_zero_iff (hi : i ≤ heapSize) (hw : i.toNat + n.toNat < 2 ^ 32) :
    (malloc heap n i).1 ≠ 0 ↔ i.toNat + n.toNat ≤ heapSize.toNat := by
  by_cases h : i + n > heapSize
  · rw [malloc_of_gt h]
    refine iff_of_false (fun hne => hne rfl) ?_
    simp only [heapSize] at *
    bv_omega
  · rw [malloc_of_le h]
    refine iff_of_true (base_add_ne_zero hi) ?_
    simp only [heapSize] at *
    bv_omega

theorem malloc_snd_of_null (hi : i ≤ heapSize) (h0 : (malloc heap n i).1 = 0) :
    (malloc heap n i).2 = i := by
  by_cases h : i + n > heapSize
  · rw [malloc_of_gt h]
  · rw [malloc_of_le h] at h0
    exact absurd h0 (base_add_ne_zero hi)

/-- **A wrapped limit test lets any size through.** -/
theorem malloc_fst_of_wrap (hi : i ≤ heapSize) (hw : ¬ i.toNat + n.toNat < 2 ^ 32) :
    (malloc heap n i).1 = heap.base + i := by
  have h : ¬ i + n > heapSize := by
    simp only [heapSize] at *
    bv_omega
  rw [malloc_of_le h]

end Malloc

/-! ## A run -/

variable {heap : HeapArray}

theorem blocks_cons (c : Call) (cs : List Call) :
    blocks (c :: cs) = c.block?.toList ++ blocks cs := by
  cases h : c.block? <;> simp [blocks, h]

/-- The index stays within `HEAP_SIZE`, wrap or no wrap. -/
theorem calls_le : ∀ (ops : List Op) {i : Word}, i ≤ heapSize →
    ∀ c ∈ calls heap i ops, c.before ≤ heapSize ∧ c.after ≤ heapSize
  | [], _, _, c, hc => by cases hc
  | .malloc n :: ops, i, hi, c, hc => by
      rw [calls] at hc
      rcases List.mem_cons.mp hc with rfl | hc
      · exact ⟨hi, malloc_snd_le hi⟩
      · exact calls_le ops (malloc_snd_le hi) c hc
  | .free p :: ops, i, hi, c, hc => calls_le ops (i := i) hi c hc

/-- Every recorded call is a `malloc` from its own `heap_index`. -/
theorem mem_calls : ∀ (ops : List Op) {i : Word}, ∀ c ∈ calls heap i ops,
    c.result = (malloc heap c.size c.before).1 ∧ c.after = (malloc heap c.size c.before).2
  | [], _, c, hc => by cases hc
  | .malloc n :: ops, i, c, hc => by
      rw [calls] at hc
      rcases List.mem_cons.mp hc with rfl | hc
      · exact ⟨rfl, rfl⟩
      · exact mem_calls ops c hc
  | .free p :: ops, i, c, hc => mem_calls ops (i := i) c hc

/-- **A run without a wrap is a run of the arena**: induction on the operations, each call that
hands out a block being one `Arena.alloc`. -/
theorem exists_arena : ∀ (ops : List Op) {i : Word}
    (a : Arena heap.base.toNat (heap.base.toNat + heapSize.toNat)),
    a.top = heap.base.toNat + i.toNat → (∀ c ∈ calls heap i ops, c.NoWrap) →
    ∃ a' : Arena heap.base.toNat (heap.base.toNat + heapSize.toNat),
      a'.blocks = a.blocks ++ blocks (calls heap i ops)
  | [], _, a, _, _ => ⟨a, by simp [calls, blocks]⟩
  | .free p :: ops, i, a, ha, hw => exists_arena ops (i := i) a ha hw
  | .malloc n :: ops, i, a, ha, hw => by
      rw [calls] at hw ⊢
      have hn : i.toNat + n.toNat < 2 ^ 32 := hw _ List.mem_cons_self
      have hrest := fun c hc => hw c (List.mem_cons_of_mem _ hc)
      have hi : i ≤ heapSize := by
        have := a.top_le
        bv_omega
      by_cases h : i + n > heapSize
      · rw [malloc_of_gt h] at hrest ⊢
        obtain ⟨a', ha'⟩ := exists_arena ops a ha hrest
        exact ⟨a', by simpa [blocks_cons, Call.block?] using ha'⟩
      · rw [malloc_of_le h] at hrest ⊢
        have hfit : a.top + n.toNat ≤ heap.base.toNat + heapSize.toNat := by
          rw [ha]
          bv_omega
        have htop : (a.alloc n.toNat hfit).top = heap.base.toNat + (i + n).toNat := by
          rw [Arena.top_alloc, ha, BitVec.toNat_add]
          omega
        obtain ⟨a', ha'⟩ := exists_arena ops (a.alloc n.toNat hfit) htop hrest
        have hptr : heap.base + i ≠ 0#32 := base_add_ne_zero hi
        refine ⟨a', ha'.trans ?_⟩
        simp [blocks_cons, Call.block?, hptr, toNat_base_add hi, ha]

/-- **The allocator is sound on a run exactly when no limit test of the run wraps.** -/
theorem sound_iff (heap : HeapArray) (ops : List Op) :
    Sound heap (calls heap 0 ops) ↔ ∀ c ∈ calls heap 0 ops, c.NoWrap := by
  have hzero : (0 : Word) ≤ heapSize := by decide
  constructor
  · intro hs c hc
    by_contra hw
    obtain ⟨hres, -⟩ := mem_calls ops c hc
    have hbefore := (calls_le ops hzero c hc).1
    -- the wrapped call did hand out a block, and that block ends behind `heap[]`
    have hptr : c.result = heap.base + c.before := hres.trans (malloc_fst_of_wrap hbefore hw)
    have hblock : (⟨c.result.toNat, c.size.toNat⟩ : Block) ∈ blocks (calls heap 0 ops) := by
      refine List.mem_filterMap.mpr ⟨c, hc, ?_⟩
      rw [Call.block?, if_neg (hptr ▸ base_add_ne_zero hbefore)]
    have hin := (hs.inside _ hblock).2
    rw [Block.stop, hptr, toNat_base_add hbefore] at hin
    simp only [Call.NoWrap, heapSize] at hw hin
    have : (0x100000#32).toNat = 0x100000 := rfl
    omega
  · intro hw
    obtain ⟨a, ha⟩ := exists_arena ops (Arena.empty (Nat.le_add_right _ _)) (by simp) hw
    rw [Arena.blocks_empty, List.nil_append] at ha
    refine ⟨fun c hc => (calls_le ops hzero c hc).2, fun b hb => ?_, ha ▸ a.apart,
      fun c hc h0 => ?_⟩
    · have := a.inside b (ha ▸ hb)
      exact ⟨this.1, this.2.trans a.top_le⟩
    · obtain ⟨hres, hafter⟩ := mem_calls ops c hc
      exact hafter.trans (malloc_snd_of_null (calls_le ops hzero c hc).1 (hres ▸ h0))

/-- A heap four megabytes up, as the linker script may place it. -/
def heapAt4M : HeapArray := ⟨0x400000#32, by decide, by decide⟩

/-- A second request eight bytes short of 4 GiB brings the sum back to 8: it is answered, with a
block that runs out of `heap[]`. -/
theorem not_sound_of_wrap :
    ¬ Sound heapAt4M (calls heapAt4M 0 [.malloc 16#32, .malloc 0xFFFFFFF8#32]) := by
  intro h
  have hin := h.inside ⟨0x400010, 0xFFFFFFF8⟩ (by decide)
  exact absurd hin.2 (by decide)

end Heap

end HuskyKernel
