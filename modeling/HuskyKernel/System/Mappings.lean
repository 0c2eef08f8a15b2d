import HuskyKernel.Logic.Service
import HuskyKernel.System.Heap

/-!
# System/Mappings — `mmap`, `munmap`, and the table behind them

`mmap` is `malloc` with an entry in `mappings[]`; `munmap` only clears the entry's `allocated`.
Entries are appended and never removed, so the table is a ledger: `ledger_exact` reads off it, for
every address, how often it has been mapped and not been unmapped.  The same fact makes the table
run out: `mmap_failed_iff` counts the mappings ever made, not those alive.
-/

namespace HuskyKernel

/-- `MAP_FAILED`. -/
def mapFailed : Word := 0xFFFFFFFF#32

/-- `MAX_MAPPINGS`. -/
def maxMappings : ℕ := 256

/-- A heap whose addresses are none of them `MAP_FAILED`: the linker script loads the image at 2M,
and it is nowhere near the top of memory. -/
structure MappedHeap extends HeapArray where
  below_failed : base.toNat + heapSize.toNat < mapFailed.toNat

/-- `MemoryMapping`. -/
structure MemoryMapping where
  addr : Word
  size : Word
  prot : Word
  allocated : Bool
deriving DecidableEq, Repr

/-- The statics `mappings`, up to `next_mapping`, and `heap_index`. -/
structure Mappings where
  mappings : List MemoryMapping
  heapIndex : Word
deriving DecidableEq, Repr

namespace Mappings

/-- The data segment at boot. -/
def boot : Mappings := ⟨[], 0⟩

/-- `next_mapping`. -/
def nextMapping (s : Mappings) : ℕ := s.mappings.length

/-- `mmap`, which ignores its other arguments. -/
def mmap (heap : HeapArray) (length prot : Word) (s : Mappings) : Word × Mappings :=
  if s.nextMapping ≥ maxMappings then (mapFailed, s)
  else
    let (allocatedAddr, heapIndex) := malloc heap length s.heapIndex
    if allocatedAddr = 0 then (mapFailed, { s with heapIndex })
    else (allocatedAddr, ⟨s.mappings ++ [⟨allocatedAddr, length, prot, true⟩], heapIndex⟩)

/-- The loop of `munmap`: clear the first live entry at `addr`, if there is one. -/
def release (addr : Word) : List MemoryMapping → Option (List MemoryMapping)
  | [] => none
  | m :: ms =>
      if m.addr = addr ∧ m.allocated then some ({ m with allocated := false } :: ms)
      else (release addr ms).map (m :: ·)

/-- `munmap`, which ignores the length: `0` on success, `-1` otherwise. -/
def munmap (addr : Word) (s : Mappings) : Word × Mappings :=
  match release addr s.mappings with
  | some ms => (0, ⟨ms, free addr s.heapIndex⟩)
  | none => (-1, s)

/-- The calls that reach the table or the heap under it. -/
inductive Op where
  | mmap (length prot : Word)
  | munmap (addr length : Word)
  | malloc (size : Word)
deriving DecidableEq, Repr

/-- The three functions as one service, from boot. -/
def service (heap : HeapArray) : Service Op Word Mappings where
  boot := boot
  call := fun s op =>
    match op with
    | .mmap length prot => s.mmap heap length prot
    | .munmap addr _ => s.munmap addr
    | .malloc size => ((malloc heap size s.heapIndex).1,
        { s with heapIndex := (malloc heap size s.heapIndex).2 })

section Service

variable {heap : HeapArray} {s : Mappings}

@[simp] theorem call_mmap (length prot : Word) :
    (service heap).call s (.mmap length prot) = s.mmap heap length prot := rfl

@[simp] theorem call_munmap (addr length : Word) :
    (service heap).call s (.munmap addr length) = s.munmap addr := rfl

end Service

/-! ## The client's account -/

/-- An `mmap` that returned the address `a`. -/
def mapsAt (a : Word) : Op × Word → Bool
  | (.mmap _ _, p) => p = a && a ≠ mapFailed
  | _ => false

/-- A `munmap` of `a` that returned 0. -/
def unmapsAt (a : Word) : Op × Word → Bool
  | (.munmap p _, r) => p = a && r = 0
  | _ => false

/-- An `mmap` that succeeded. -/
def maps : Op × Word → Bool
  | (.mmap _ _, p) => p ≠ mapFailed
  | _ => false

/-- A `munmap` that succeeded. -/
def unmaps : Op × Word → Bool
  | (.munmap _ _, r) => r = 0
  | _ => false

/-- The number of allocated table entries with address `a`. -/
def entries (a : Word) (ms : List MemoryMapping) : ℕ :=
  ms.countP fun m => m.addr = a && m.allocated

/-- What the table `s` says about the history `h`, and what the next call does. -/
structure Ledger (heap : HeapArray) (h : List (Op × Word)) (s : Mappings) : Prop where
  counts : ∀ a, (entries a s.mappings : ℤ) = h.countP (mapsAt a) - h.countP (unmapsAt a)
  munmap_iff : ∀ a, (s.munmap a).1 = 0 ↔ 0 < entries a s.mappings
  munmap_none : ∀ a, ¬ 0 < entries a s.mappings → (s.munmap a).2 = s
  mmap_failed : ∀ length prot, (s.mmap heap length prot).1 = mapFailed →
    (s.mmap heap length prot).2 = s

/-! ## Releasing an entry -/

section Release

variable {a b : Word} {ms ms' : List MemoryMapping} {m : MemoryMapping}

@[simp] theorem entries_nil : entries a [] = 0 := rfl

theorem entries_cons : entries a (m :: ms) =
    entries a ms + if m.addr = a ∧ m.allocated then 1 else 0 := by
  simp [entries, List.countP_cons]

theorem entries_append : entries a (ms ++ ms') = entries a ms + entries a ms' :=
  List.countP_append

/-- There is nothing to release exactly where there is no live entry. -/
theorem release_eq_none_iff : release a ms = none ↔ entries a ms = 0 := by
  induction ms with
  | nil => simp [release]
  | cons m ms ih =>
    rw [release, entries_cons]
    by_cases hm : m.addr = a ∧ m.allocated
    · rw [if_pos hm, if_pos hm]
      simp
    · rw [if_neg hm, if_neg hm, Option.map_eq_none_iff, ih, Nat.add_zero]

/-- **A release takes one entry of its own address and no other.** -/
theorem entries_of_release : ∀ {ms ms' : List MemoryMapping}, release a ms = some ms' →
    entries b ms = entries b ms' + if a = b then 1 else 0
  | [], ms', h => by cases h
  | m :: ms, ms', h => by
      rw [release] at h
      by_cases hm : m.addr = a ∧ m.allocated
      · rw [if_pos hm, Option.some.injEq] at h
        subst h
        simp [entries_cons, hm]
      · rw [if_neg hm] at h
        obtain ⟨ms₁, hrec, rfl⟩ := Option.map_eq_some_iff.mp h
        rw [entries_cons, entries_cons, entries_of_release hrec]
        omega

theorem length_of_release : ∀ {ms ms' : List MemoryMapping}, release a ms = some ms' →
    ms'.length = ms.length
  | [], ms', h => by cases h
  | m :: ms, ms', h => by
      rw [release] at h
      by_cases hm : m.addr = a ∧ m.allocated
      · rw [if_pos hm, Option.some.injEq] at h
        subst h
        rfl
      · rw [if_neg hm] at h
        obtain ⟨ms₁, hrec, rfl⟩ := Option.map_eq_some_iff.mp h
        rw [List.length_cons, List.length_cons, length_of_release hrec]

end Release

/-! ## One call -/

section Call

variable {heap : MappedHeap} {s : Mappings} {length prot a : Word}

/-- A block of the heap is not at `MAP_FAILED`. -/
theorem base_add_ne_mapFailed {i : Word} (hi : i ≤ heapSize) : heap.base + i ≠ mapFailed := by
  intro heq
  have hbelow := heap.below_failed
  have hadd : (heap.base + i).toNat = heap.base.toNat + i.toNat := Heap.toNat_base_add hi
  rw [heq] at hadd
  simp only [heapSize, mapFailed] at *
  bv_omega

/-- What `mmap` can do: map a new block behind all entries, or change nothing, because the table is
full or because `malloc` has returned NULL. -/
theorem mmap_cases (heap : MappedHeap) (s : Mappings) (length prot : Word)
    (hs : s.heapIndex ≤ heapSize) :
    (s.nextMapping < maxMappings ∧ (malloc heap.toHeapArray length s.heapIndex).1 ≠ 0 ∧
      ∃ p, p ≠ mapFailed ∧ s.mmap heap.toHeapArray length prot = (p,
        ⟨s.mappings ++ [⟨p, length, prot, true⟩],
          (malloc heap.toHeapArray length s.heapIndex).2⟩)) ∨
    ((maxMappings ≤ s.nextMapping ∨ (malloc heap.toHeapArray length s.heapIndex).1 = 0) ∧
      s.mmap heap.toHeapArray length prot = (mapFailed, s)) := by
  by_cases hfull : s.nextMapping ≥ maxMappings
  · exact Or.inr ⟨Or.inl hfull, by rw [mmap, if_pos hfull]⟩
  rw [mmap, if_neg hfull]
  by_cases hgt : s.heapIndex + length > heapSize
  · rw [Heap.malloc_of_gt hgt]
    exact Or.inr ⟨Or.inr rfl, rfl⟩
  · have hnull : heap.base + s.heapIndex ≠ 0 := Heap.base_add_ne_zero hs
    rw [Heap.malloc_of_le hgt]
    exact Or.inl ⟨not_le.mp hfull, hnull, _, base_add_ne_mapFailed hs, if_neg hnull⟩

theorem munmap_of_release {ms : List MemoryMapping} (h : release a s.mappings = some ms) :
    s.munmap a = (0, ⟨ms, s.heapIndex⟩) := by
  rw [munmap, h]
  rfl

/-- What `munmap` can do: release the first entry at the address, or find none. -/
theorem munmap_cases (s : Mappings) (a : Word) :
    (∃ ms, release a s.mappings = some ms ∧ s.munmap a = (0, ⟨ms, s.heapIndex⟩)) ∨
    (entries a s.mappings = 0 ∧ s.munmap a = (-1, s)) := by
  cases hr : release a s.mappings with
  | some ms => exact Or.inl ⟨ms, rfl, munmap_of_release hr⟩
  | none => exact Or.inr ⟨release_eq_none_iff.mp hr, by rw [munmap, hr]⟩

/-- `munmap` succeeds exactly on an address with a live entry. -/
theorem munmap_fst_iff : (s.munmap a).1 = 0 ↔ 0 < entries a s.mappings := by
  rcases munmap_cases s a with ⟨ms, hr, hcall⟩ | ⟨hnone, hcall⟩
  · have := entries_of_release (b := a) hr
    rw [if_pos rfl] at this
    simp only [hcall, true_iff]
    omega
  · rw [hcall, hnone]
    simp

end Call

/-! ## A run -/

section Run

variable {heap : MappedHeap} {h : List (Op × Word)} {s : Mappings}

/-- What every call preserves. -/
structure Kept (heap : MappedHeap) (h : List (Op × Word)) (s : Mappings) : Prop where
  index_le : s.heapIndex ≤ heapSize
  next_le : s.nextMapping ≤ maxMappings
  made : s.nextMapping = h.countP maps
  counts : ∀ a, (entries a s.mappings : ℤ) = h.countP (mapsAt a) - h.countP (unmapsAt a)

theorem Kept.mmap (hk : Kept heap h s) (length prot : Word) :
    Kept heap (h ++ [(.mmap length prot, (s.mmap heap.toHeapArray length prot).1)])
      (s.mmap heap.toHeapArray length prot).2 := by
  rcases mmap_cases heap s length prot hk.index_le with ⟨hlt, -, p, hp, hcall⟩ | ⟨-, hcall⟩
  · rw [hcall]
    refine ⟨Heap.malloc_snd_le hk.index_le, ?_, ?_, fun a => ?_⟩
    · simpa [nextMapping] using Nat.succ_le_of_lt hlt
    · simpa [nextMapping, maps, hp] using hk.made
    · have := hk.counts a
      by_cases hpa : p = a
      · subst hpa
        simp [entries_append, entries_cons, mapsAt, unmapsAt, hp, this]
        omega
      · simp [entries_append, entries_cons, mapsAt, unmapsAt, hpa, this]
  · rw [hcall]
    refine ⟨hk.index_le, hk.next_le, ?_, fun a => ?_⟩
    · simpa [maps] using hk.made
    · have hne : ¬ (mapFailed = a ∧ ¬ a = mapFailed) := fun h => h.2 h.1.symm
      simpa [mapsAt, unmapsAt, hne] using hk.counts a

theorem Kept.munmap (hk : Kept heap h s) (a length : Word) :
    Kept heap (h ++ [(.munmap a length, (s.munmap a).1)]) (s.munmap a).2 := by
  rcases munmap_cases s a with ⟨ms, hr, hcall⟩ | ⟨-, hcall⟩
  · rw [hcall]
    have hlen := length_of_release hr
    refine ⟨hk.index_le, hlen.le.trans hk.next_le, ?_, fun b => ?_⟩
    · simpa [nextMapping, maps, hlen] using hk.made
    · have hentries := entries_of_release (b := b) hr
      have hcounts := hk.counts b
      by_cases hab : a = b
      · simp only [hab, if_true] at hentries
        simp [mapsAt, unmapsAt, hab]
        omega
      · simp only [hab, if_false] at hentries
        simp [mapsAt, unmapsAt, hab]
        omega
  · rw [hcall]
    refine ⟨hk.index_le, hk.next_le, ?_, fun b => ?_⟩
    · simpa [maps] using hk.made
    · simpa [mapsAt, unmapsAt] using hk.counts b

theorem Kept.malloc (hk : Kept heap h s) (size : Word) :
    Kept heap (h ++ [(.malloc size, (malloc heap.toHeapArray size s.heapIndex).1)])
      { s with heapIndex := (HuskyKernel.malloc heap.toHeapArray size s.heapIndex).2 } where
  index_le := Heap.malloc_snd_le hk.index_le
  next_le := hk.next_le
  made := by simpa [nextMapping, maps] using hk.made
  counts := fun a => by simpa [mapsAt, unmapsAt] using hk.counts a

theorem kept_run (heap : MappedHeap) (ops : List Op) :
    Kept heap ((service heap.toHeapArray).history ops) ((service heap.toHeapArray).state ops) := by
  refine (service heap.toHeapArray).invariant (P := Kept heap) ?_ (fun h s op hk => ?_) ops
  · exact ⟨show (0 : Word) ≤ heapSize by decide, Nat.zero_le _, rfl, fun a => rfl⟩
  · cases op with
    | mmap length prot => exact hk.mmap length prot
    | munmap a length => exact hk.munmap a length
    | malloc size => exact hk.malloc size

/-- **The table is a ledger of the client's calls**, after every run. -/
theorem ledger_exact (heap : MappedHeap) (ops : List Op) :
    Ledger heap.toHeapArray ((service heap.toHeapArray).history ops)
      ((service heap.toHeapArray).state ops) := by
  have hk : Kept heap _ _ := kept_run heap ops
  refine ⟨hk.counts, fun a => munmap_fst_iff, fun a hnone => ?_, fun length prot hfail => ?_⟩
  · rcases munmap_cases _ a with ⟨ms, hr, hcall⟩ | ⟨-, hcall⟩
    · exact absurd (munmap_fst_iff.mp (by rw [hcall])) hnone
    · rw [hcall]
  · rcases mmap_cases heap _ length prot hk.index_le with ⟨-, -, p, hp, hcall⟩ | ⟨-, hcall⟩
    · rw [hcall] at hfail
      exact absurd hfail hp
    · rw [hcall]

/-- **When `mmap` fails**: after 256 successful calls, whatever has become of their mappings, or
because `malloc` returns NULL. -/
theorem mmap_failed_iff (heap : MappedHeap) (ops : List Op) (length prot : Word) :
    (((service heap.toHeapArray).state ops).mmap heap.toHeapArray length prot).1 = mapFailed ↔
      ((service heap.toHeapArray).history ops).countP maps = maxMappings ∨
        (malloc heap.toHeapArray length
          ((service heap.toHeapArray).state ops).heapIndex).1 = 0 := by
  have hk : Kept heap _ _ := kept_run heap ops
  have hnext := hk.next_le
  rw [hk.made] at hnext
  rcases mmap_cases heap _ length prot hk.index_le with ⟨hlt, hnull, p, hp, hcall⟩ | ⟨hwhy, hcall⟩
  · rw [hk.made] at hlt
    simp only [hcall, hp, hnull, or_false, false_iff]
    omega
  · rw [hk.made] at hwhy
    simp only [hcall, true_iff]
    exact hwhy.imp (fun hge => le_antisymm hnext hge) id

end Run

/-! ## Running out -/

/-- A heap four megabytes up. -/
def heapAt4M : MappedHeap := ⟨Heap.heapAt4M, by decide⟩

/-- Map one byte and unmap it again, `n` times. -/
def mapUnmap (n : ℕ) : List Op :=
  (List.range n).flatMap fun i =>
    [.mmap 1 0, .munmap (heapAt4M.base + BitVec.ofNat 32 i) 1]

/-- Every mapping ever made is released, and each has taken one byte. -/
structure Spent (n : ℕ) (h : List (Op × Word)) (s : Mappings) : Prop where
  index : s.heapIndex = BitVec.ofNat 32 n
  next : s.nextMapping = n
  released : ∀ m ∈ s.mappings, m.allocated = false
  unmapped : h.countP unmaps = n

/-- `munmap` passes released entries. -/
theorem release_append {a : Word} {ms : List MemoryMapping} {m : MemoryMapping}
    (hms : ∀ m ∈ ms, m.allocated = false) (hm : m.addr = a ∧ m.allocated) :
    release a (ms ++ [m]) = some (ms ++ [{ m with allocated := false }]) := by
  induction ms with
  | nil => simp [release, hm]
  | cons m₁ ms ih =>
    have h₁ : ¬ (m₁.addr = a ∧ m₁.allocated) := by simp [hms m₁ List.mem_cons_self]
    rw [List.cons_append, release, if_neg h₁, ih fun m hm => hms m (List.mem_cons_of_mem _ hm)]
    rfl

/-- One more round: the block behind the last one, mapped and released. -/
theorem Spent.round {n : ℕ} {h : List (Op × Word)} {s : Mappings} (hs : Spent n h s)
    (hn : n < maxMappings) :
    s.mmap heapAt4M.toHeapArray 1 0 = (heapAt4M.base + BitVec.ofNat 32 n,
        ⟨s.mappings ++ [⟨heapAt4M.base + BitVec.ofNat 32 n, 1, 0, true⟩],
          BitVec.ofNat 32 (n + 1)⟩) ∧
      (s.mmap heapAt4M.toHeapArray 1 0).2.munmap (heapAt4M.base + BitVec.ofNat 32 n) = (0,
        ⟨s.mappings ++ [⟨heapAt4M.base + BitVec.ofNat 32 n, 1, 0, false⟩],
          BitVec.ofNat 32 (n + 1)⟩) := by
  have hroom : ¬ s.heapIndex + 1 > heapSize := by
    rw [hs.index]
    simp only [maxMappings, heapSize] at *
    bv_omega
  have hle : s.heapIndex ≤ heapSize := by
    rw [hs.index]
    simp only [maxMappings, heapSize] at *
    bv_omega
  have hnull : heapAt4M.base + s.heapIndex ≠ 0 := Heap.base_add_ne_zero hle
  have hmap : s.mmap heapAt4M.toHeapArray 1 0 = (heapAt4M.base + s.heapIndex,
      ⟨s.mappings ++ [⟨heapAt4M.base + s.heapIndex, 1, 0, true⟩], s.heapIndex + 1⟩) := by
    rw [mmap, if_neg (by rw [hs.next]; omega), Heap.malloc_of_le hroom]
    exact if_neg hnull
  rw [hs.index, show BitVec.ofNat 32 n + 1 = BitVec.ofNat 32 (n + 1) from
    (BitVec.ofNat_add n 1).symm] at hmap
  refine ⟨hmap, ?_⟩
  rw [hmap]
  exact munmap_of_release (release_append hs.released ⟨rfl, rfl⟩)

theorem spent_mapUnmap : ∀ n ≤ maxMappings,
    Spent n ((service heapAt4M.toHeapArray).history (mapUnmap n))
      ((service heapAt4M.toHeapArray).state (mapUnmap n))
  | 0, _ => ⟨rfl, rfl, fun m hm => absurd hm List.not_mem_nil, rfl⟩
  | n + 1, hn => by
      have hs := spent_mapUnmap n (by omega)
      have hops : mapUnmap (n + 1) = (mapUnmap n ++ [.mmap 1 0]) ++
          [.munmap (heapAt4M.base + BitVec.ofNat 32 n) 1] := by
        simp [mapUnmap, List.range_succ]
      obtain ⟨hmap, hunmap⟩ := hs.round (by omega)
      simp only [hops, Service.history_concat, Service.state_concat, call_munmap, call_mmap,
        hunmap]
      refine ⟨rfl, ?_, fun m hm => ?_, ?_⟩
      · rw [nextMapping, List.length_append]
        exact congrArg (· + 1) hs.next
      · rcases List.mem_append.mp hm with hm | hm
        · exact hs.released m hm
        · rw [List.mem_singleton.mp hm]
      · simpa [unmaps] using hs.unmapped

/-- After 256 rounds nothing is mapped, the heap has room for more, and `mmap` fails. -/
theorem not_usable_again :
    ¬ ∀ (heap : MappedHeap) (ops : List Op) (length prot : Word),
      (((service heap.toHeapArray).state ops).mmap heap.toHeapArray length prot).1 = mapFailed →
      (((service heap.toHeapArray).history ops).countP maps : ℤ) -
          ((service heap.toHeapArray).history ops).countP unmaps = maxMappings ∨
        (malloc heap.toHeapArray length
          ((service heap.toHeapArray).state ops).heapIndex).1 = 0 := by
  intro hall
  have hs := spent_mapUnmap maxMappings le_rfl
  have hmade := (kept_run heapAt4M (mapUnmap maxMappings)).made
  have hcall := hall heapAt4M (mapUnmap maxMappings) 1 0
  generalize (service heapAt4M.toHeapArray).history (mapUnmap maxMappings) = h at *
  generalize (service heapAt4M.toHeapArray).state (mapUnmap maxMappings) = s at *
  have hfull : s.nextMapping ≥ maxMappings := hs.next.ge
  have hfail : (s.mmap heapAt4M.toHeapArray 1 0).1 = mapFailed := by
    rw [mmap, if_pos hfull]
  rcases hcall hfail with hlive | hnull
  · rw [← hmade, hs.next, hs.unmapped, sub_self] at hlive
    exact absurd hlive (by decide)
  · rw [hs.index] at hnull
    exact absurd hnull (by decide)

end Mappings

end HuskyKernel
