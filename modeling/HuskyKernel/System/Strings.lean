import HuskyKernel.System.Overlaps

/-!
# System/Strings — C strings outside the free part of the heap

`Str heap m i p bs`: with the first `i` bytes of the heap handed out, the C string at `p` is `bs`,
and no byte of it lies in what `malloc` has left.  It stays there whatever is written into that
part (`Str.grow`), and the string functions of the kernel, told to write to a fresh block, are
plain stores: `memcpy_eq_store`, `strcpy_eq_store`, `strcat_eq_store`.
-/

namespace HuskyKernel

/-- Inside `heap[]`, behind the first `i` bytes. -/
def Free (heap : HeapArray) (i : ℕ) (x : Word) : Prop :=
  heap.base.toNat + i ≤ x.toNat ∧ x.toNat < heap.base.toNat + heapSize.toNat

instance {heap : HeapArray} {i : ℕ} {x : Word} : Decidable (Free heap i x) :=
  inferInstanceAs (Decidable (_ ∧ _))

/-- The C string at `p`, all of it outside what `malloc` has left. -/
structure Str (heap : HeapArray) (m : Mem) (i : ℕ) (p : Word) (bs : List Byte) : Prop where
  text : m.cstr? p = some bs
  kept : ∀ x, Within p (bs.length + 1) x → ¬ Free heap i x

variable {heap : HeapArray} {m m' : Mem} {i j n : ℕ} {p q : Word} {bs cs : List Byte}

namespace Mem

/-! ## Stores, one behind the other -/

theorem store_append (m : Mem) (a : Word) (bs cs : List Byte) :
    m.store a (bs ++ cs) = (m.store a bs).store (a + BitVec.ofNat 32 bs.length) cs := by
  induction bs generalizing m a with
  | nil =>
    rw [List.nil_append, List.length_nil, BitVec.add_zero]
    rfl
  | cons b bs ih => rw [List.cons_append, store, ih, store, List.length_cons, add_ofNat_succ]

/-- A NUL is stored over. -/
theorem store_zero_store (m : Mem) (a : Word) (b : Byte) (bs : List Byte) :
    (m.store a [0]).store a (b :: bs) = m.store a (b :: bs) := by
  change ((m.poke a 0).poke a b).store (a + 1) bs = (m.poke a b).store (a + 1) bs
  rw [poke, poke, Function.update_idem, poke]

/-! ## Copies to elsewhere -/

/-- The `n` bytes from `p` on and those from `q` on are others. -/
def Apart (p q : Word) (n : ℕ) : Prop := ∀ x, Within p n x → ¬ Within q n x

theorem Apart.tail (h : Apart p q (n + 1)) : Apart (p + 1) (q + 1) n := fun _ hp hq =>
  h _ hp.of_succ hq.of_succ

/-- The byte at `q` is not stored to. -/
theorem poke_of_apart (h : Apart p q (n + 1)) (b : Byte) {x : Word} (hx : Within p (n + 1) x) :
    m.poke q b x = m x := by
  refine Function.update_of_ne (fun hxq => h x hx ?_) ..
  rw [hxq]
  exact Within.start (Nat.succ_pos n)

theorem load_congr (h : ∀ x, Within p n x → m' x = m x) : m'.load p n = m.load p n := by
  induction n generalizing p with
  | zero => rfl
  | succ n ih =>
    rw [load, load, h p (Within.start (Nat.succ_pos n)), ih fun x hx => h x hx.of_succ]

/-- **`memcpy` to elsewhere** stores what it loads. -/
theorem memcpy_eq_store (h : Apart p q n) : m.memcpy q p n = m.store q (m.load p n) := by
  induction n generalizing m p q with
  | zero => rfl
  | succ n ih =>
    have hload : (m.poke q (m p)).load (p + 1) n = m.load (p + 1) n :=
      load_congr fun x hx => poke_of_apart h _ hx.of_succ
    rw [memcpy, ih h.tail, load, store, hload]

theorem Apart.clear (h : Apart p q (n + 1)) : Clear q p n := by
  have hq := mt (h q) (not_not.mpr (Within.start (Nat.succ_pos n)))
  exact Or.inr (Nat.lt_of_succ_le (not_lt.mp hq))

/-- **`strcpy` to elsewhere** stores the string it finds. -/
theorem strcpy_eq_store (ht : m.cstr? p = some bs) (h : Apart p q (bs.length + 1)) :
    m.strcpy q p = some (m.store q (bs ++ [0])) := by
  rw [strcpy_eq, ht, Option.bind_some, if_pos h.clear]

/-- **`strcat` to elsewhere** stores the string it finds over the NUL of the other. -/
theorem strcat_eq_store (hz : 0 ∉ cs) (hc : cs.length < span)
    (ht : (m.store q (cs ++ [0])).cstr? p = some bs)
    (h : Apart p (q + BitVec.ofNat 32 cs.length) (bs.length + 1)) :
    (m.store q (cs ++ [0])).strcat q p = some (m.store q (cs ++ bs ++ [0])) := by
  have hover : ∀ bs : List Byte, ((m.store q cs).store (q + BitVec.ofNat 32 cs.length) [0]).store
      (q + BitVec.ofNat 32 cs.length) (bs ++ [0])
      = (m.store q cs).store (q + BitVec.ofNat 32 cs.length) (bs ++ [0]) := by
    intro bs
    cases bs <;> exact store_zero_store _ _ _ _
  rw [strcat, cstr?_store m q hz hc, Option.bind_some, strcpy_eq_store ht h, store_append m q cs,
    hover, ← store_append, List.append_assoc]

end Mem

/-! ## Blocks -/

open Mem

/-- **A request that fits** is answered with the next block. -/
theorem malloc_eq {i : Word} {n : Word} (h : i.toNat + n.toNat ≤ heapSize.toNat) :
    malloc heap n i = (heap.base + i, i + n) := by
  refine Heap.malloc_of_le (BitVec.not_lt.mpr ?_)
  have hsize : heapSize.toNat < 2 ^ 32 := heapSize.isLt
  rw [BitVec.le_def, BitVec.toNat_add, Nat.mod_eq_of_lt (by omega)]
  exact h

/-- A block of what is left. -/
theorem free_of_within (h : i + n ≤ heapSize.toNat) {x : Word}
    (hx : Within (heap.base + BitVec.ofNat 32 i) n x) :
    heap.base.toNat + i ≤ x.toNat ∧ x.toNat < heap.base.toNat + (i + n) := by
  have hfits := heap.fits
  rcases Nat.eq_zero_or_pos n with rfl | hn
  · exact absurd hx (Nat.not_lt_zero _)
  have hbase : (heap.base + BitVec.ofNat 32 i).toNat = heap.base.toNat + i := by
    rw [BitVec.toNat_add, BitVec.toNat_ofNat, Nat.add_mod_mod, Nat.mod_eq_of_lt (by omega)]
  rw [Within.iff (by omega), hbase] at hx
  omega

theorem not_within_of_not_free (h : i + n ≤ heapSize.toNat) {x : Word} (hx : ¬ Free heap i x) :
    ¬ Within (heap.base + BitVec.ofNat 32 i) n x := fun hw =>
  hx ⟨(free_of_within h hw).1, by have := (free_of_within h hw).2; omega⟩

/-- What is stored in a fresh block is stored nowhere else. -/
theorem store_of_not_free (h : i + bs.length ≤ heapSize.toNat) {x : Word} (hx : ¬ Free heap i x) :
    m.store (heap.base + BitVec.ofNat 32 i) bs x = m x := by
  have hsize : heapSize.toNat < span := by decide
  exact store_of_not_within (by omega) (not_within_of_not_free h hx)

namespace Str

theorem zero_notMem (h : Str heap m i p bs) : 0 ∉ bs := (cstr?_eq_some.mp h.text).1

theorem length_lt (h : Str heap m i p bs) : bs.length < span := (cstr?_eq_some.mp h.text).2.1

/-- **A string outlives what is done to the free part of the heap.** -/
theorem grow (h : Str heap m i p bs) (hij : i ≤ j) (hm : ∀ x, ¬ Free heap i x → m' x = m x) :
    Str heap m' j p bs :=
  ⟨cstr?_congr h.text fun x hx => hm x (h.kept x hx),
    fun x hx hfree => h.kept x hx ⟨by have := hfree.1; omega, hfree.2⟩⟩

/-- A string and a fresh block are apart. -/
theorem apart (h : Str heap m i p bs) (hij : i ≤ j) (hj : j + (bs.length + 1) ≤ heapSize.toNat) :
    Apart p (heap.base + BitVec.ofNat 32 j) (bs.length + 1) := fun x hx =>
  not_within_of_not_free hj fun hfree => h.kept x hx ⟨by have := hfree.1; omega, hfree.2⟩

/-- **A string stored in a fresh block.** -/
theorem store (m : Mem) (h0 : 0 ∉ bs) (h : i + (bs.length + 1) ≤ heapSize.toNat) :
    Str heap (m.store (heap.base + BitVec.ofNat 32 i) (bs ++ [0])) (i + (bs.length + 1))
      (heap.base + BitVec.ofNat 32 i) bs := by
  have hsize : heapSize.toNat < span := by decide
  refine ⟨cstr?_store m _ h0 (by omega), fun x hx hfree => ?_⟩
  have hlt := (free_of_within h hx).2
  have hle := hfree.1
  omega

/-- The bytes of a string, its NUL among them. -/
theorem load (h : Str heap m i p bs) : m.load p (bs.length + 1) = bs ++ [0] := by
  have hholds := (cstr?_eq_some.mp h.text).2.2
  rwa [Holds, List.length_append, List.length_singleton] at hholds

end Str

end HuskyKernel
