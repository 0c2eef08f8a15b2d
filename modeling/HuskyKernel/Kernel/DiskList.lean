import HuskyKernel.Kernel.Disks

/-!
# Kernel/DiskList — what a list of disks holds

`get_hba_port` reads BAR0, and what lies at that address goes to `mmap` as the offset, which `mmap`
ignores: what `check_type` looks at is the next 128 bytes of the heap, or, once the table is full,
what lies at `MAP_FAILED`.  `devices_listDevices` says what the list holds then.  It is a local of
`get_ahci_devices`, so whoever calls gets a pointer that shows nothing (`filters_getAhciDevices`).
-/

namespace HuskyKernel

open Mem

namespace Disks

/-- A heap in an image loaded at 2M. -/
structure LoadedHeap extends MappedHeap where
  loaded : 0x200000 ≤ base.toNat

/-- `check_type` finds a device behind the address in BAR0. -/
def isAhci (config : Pci.Config) (m : Mem) (d : PciDevice) : Bool :=
  checkType m (Pci.readConfigSpace config d.bus d.device d.function 0x10) ≠ .null

/-- The pointer shows a list that holds exactly the devices of `l` with a port of any type behind
BAR0, in order. -/
def Filters (config : Pci.Config) (l : PciDeviceList) (s : Listing) (r : ℕ × Listing) : Prop :=
  ∃ list, r.2.frames.read r.1 = some list ∧
    list.devices r.2.mem = (l.devices s.mem).filter (isAhci config s.mem)

/-- The part of the heap not handed out. -/
def Unused (heap : HeapArray) (s : Mappings) (x : Word) : Prop :=
  Within (heap.base + s.heapIndex) (heapSize.toNat - s.heapIndex.toNat) x

/-- A call as the kernel makes it: the rest of the heap is as the loader left it and has room for
what the call takes, and the list is not in it. -/
structure Ready (heap : HeapArray) (l : PciDeviceList) (s : Listing) : Prop where
  bounds : Fits 0 s.maps
  room : s.maps.heapIndex.toNat + 268 * l.length ≤ heapSize.toNat
  fresh : ∀ x, Unused heap s.maps x → s.mem x = 0
  apart : ∀ i < l.length, ∀ k < pciDeviceSize,
    ¬ Unused heap s.maps (l.entry i + BitVec.ofNat 32 k)

section Fill

variable {heap : MappedHeap} {config : Pci.Config} {l : PciDeviceList} {m m₀ m' : Mem}
  {a b : Word} {j n : ℕ}

/-- Twelve bytes make a device. -/
theorem pciDevice_congr
    (h : ∀ k < pciDeviceSize, m (a + BitVec.ofNat 32 k) = m' (b + BitVec.ofNat 32 k)) :
    m.pciDevice a = m'.pciDevice b := by
  have hadd : ∀ i k, i + k < pciDeviceSize → m (a + BitVec.ofNat 32 i + BitVec.ofNat 32 k) =
      m' (b + BitVec.ofNat 32 i + BitVec.ofNat 32 k) := by
    intro i k hik
    have hboth := h (i + k) hik
    rwa [BitVec.ofNat_add, ← BitVec.add_assoc, ← BitVec.add_assoc] at hboth
  have h0 := h 0 (by decide)
  rw [show a + BitVec.ofNat 32 0 = a from BitVec.add_zero a,
    show b + BitVec.ofNat 32 0 = b from BitVec.add_zero b] at h0
  have hvendor : m.word16 (a + 4) = m'.word16 (b + 4) :=
    word16_eq_of_bytes fun k hk => hadd 4 k (by simp only [pciDeviceSize]; omega)
  have hdevice : m.word16 (a + 6) = m'.word16 (b + 6) :=
    word16_eq_of_bytes fun k hk => hadd 6 k (by simp only [pciDeviceSize]; omega)
  have hport : m.word (a + 8) = m'.word (b + 8) :=
    word_eq_of_bytes fun k hk => hadd 8 k (by simp only [pciDeviceSize]; omega)
  rw [Mem.pciDevice, Mem.pciDevice, h0, show m (a + 1) = m' (b + 1) from h 1 (by decide),
    show m (a + 2) = m' (b + 2) from h 2 (by decide), hvendor, hdevice, hport]

/-- The first `j` entries have been copied to `a`, and nothing else has changed. -/
structure Copied (l : PciDeviceList) (a : Word) (m₀ m : Mem) (j : ℕ) : Prop where
  entries : ∀ i < j, ∀ k < pciDeviceSize,
    m (a + BitVec.ofNat 32 (pciDeviceSize * i) + BitVec.ofNat 32 k) =
      m₀ (l.entry i + BitVec.ofNat 32 k)
  frame : ∀ x, ¬ Within a (pciDeviceSize * j) x → m x = m₀ x

/-- One entry more. -/
theorem Copied.copy (h : Copied l a m₀ m j) (hj : j < 128)
    (hapart : ∀ k < pciDeviceSize, ¬ Within a (pciDeviceSize * j) (l.entry j + BitVec.ofNat 32 k)) :
    Copied l a m₀ (m.store (a + BitVec.ofNat 32 (pciDeviceSize * j))
      (m.load (l.entry j) pciDeviceSize)) (j + 1) := by
  have hlen : (m.load (l.entry j) pciDeviceSize).length = pciDeviceSize := length_load _ _
  have hspan : (m.load (l.entry j) pciDeviceSize).length ≤ span := by
    rw [hlen]
    decide
  refine ⟨fun i hi k hk => ?_, fun x hx => ?_⟩
  · rcases Nat.lt_succ_iff_lt_or_eq.mp hi with hi | rfl
    · rw [store_of_not_within hspan fun hx => ?_, h.entries i hi k hk]
      rw [hlen] at hx
      have hge := ((Within.add_iff (by simp only [pciDeviceSize]; omega)).mp hx).1
      have hlt := ((Within.add_iff (by simp only [pciDeviceSize]; omega)).mp
        (Within.add (a := a + BitVec.ofNat 32 (pciDeviceSize * i)) hk)).2
      simp only [pciDeviceSize] at *
      omega
    · rw [store_add hspan (by rwa [hlen]), getD_load _ hk]
      exact h.frame _ (hapart k hk)
  · rw [store_of_not_within hspan fun hin => hx ?_, h.frame x fun hin => hx ?_]
    · exact hin.mono (by simp only [pciDeviceSize]; omega)
    · rw [hlen] at hin
      exact Within.of_add hin (by simp only [pciDeviceSize]; omega)

/-- `check_type` reads the two words from `0x24` on. -/
theorem checkType_congr (h : ∀ x, Within (a + 0x24) 8 x → m x = m' x) :
    checkType m a = checkType m' a := by
  have hsig : m.word (a + 0x24) = m'.word (a + 0x24) :=
    word_congr fun x hx => h x (hx.mono (by decide))
  have hssts : m.word (a + 0x28) = m'.word (a + 0x28) := by
    refine word_congr fun x hx => h x (Within.of_add (k := 4) (m := 4) ?_ (by decide))
    rwa [BitVec.add_assoc]
  rw [checkType, checkType, hsig, hssts]

/-- A block of zeros is no device. -/
theorem checkType_of_zero (h : ∀ x, Within a 128 x → m x = 0) : checkType m a = .null := by
  have hssts : m.word (a + 0x28) = 0 :=
    word_eq_zero fun x hx => h x (Within.of_add (k := 0x28) hx (by decide))
  rw [checkType, hssts]
  exact if_pos (by decide)

/-- An entry in a fresh heap: as long as the table has a place, a block of zeros, which is no
device; from then on `MAP_FAILED`. -/
theorem typeOf_fresh (heap : MappedHeap) (config : Pci.Config) (dev : Word) {s : Listing}
    (hs : Fits 0 s.maps) (hroom : s.maps.heapIndex.toNat + 128 ≤ heapSize.toNat)
    (hfresh : ∀ x, Within (heap.base + s.maps.heapIndex) 128 x → s.mem x = 0) :
    Fits 1 s.maps ∧ (typeOf heap.toHeapArray config dev s).1 = .null ∧
        (typeOf heap.toHeapArray config dev s).2.maps = mapped heap.toHeapArray s.maps ∨
      s.maps.nextMapping = maxMappings ∧
        (typeOf heap.toHeapArray config dev s).1 = checkType s.mem mapFailed ∧
        (typeOf heap.toHeapArray config dev s).2.maps = s.maps := by
  by_cases h : Fits 1 s.maps
  · obtain ⟨htype, hmaps⟩ := typeOf_of_mmap config dev (mmap_of_fits heap h)
    exact .inl ⟨h, htype.trans (checkType_of_zero hfresh), hmaps⟩
  · have hfull : s.maps.nextMapping = maxMappings := by
      have hle := hs.1
      by_contra hne
      exact h ⟨by omega, hroom⟩
    exact .inr ⟨hfull, typeOf_of_mmap config dev (mmap_of_not_fits heap hs h)⟩

/-- What the first pass counts in a fresh heap: the devices it finds no table entry for, if
`MAP_FAILED` looks like a device. -/
theorem countLoop_fresh (heap : MappedHeap) (config : Pci.Config) (l : PciDeviceList) :
    ∀ (is : List ℕ) (c : ℕ) {s : Listing}, Fits 0 s.maps →
      s.maps.heapIndex.toNat + 128 * is.length ≤ heapSize.toNat →
      (∀ x, Within (heap.base + s.maps.heapIndex) (128 * is.length) x → s.mem x = 0) →
      (countLoop heap.toHeapArray config l is c s).1 =
        c + if checkType s.mem mapFailed = .null then 0
          else is.length - (maxMappings - s.maps.nextMapping)
  | [], c, s, _, _, _ => by
      rw [countLoop, List.length_nil, Nat.zero_sub, ite_self]
      rfl
  | i :: is, c, s, hs, hroom, hfresh => by
      rw [List.length_cons] at *
      rw [countLoop]
      have hloop := fun c' => countLoop_fresh heap config l is c'
        (s := (typeOf heap.toHeapArray config (l.entry i) s).2)
      rcases typeOf_fresh heap config (l.entry i) hs (by omega)
        fun x hx => hfresh x (hx.mono (by omega)) with ⟨h, htype, hmaps⟩ | ⟨hfull, htype, hmaps⟩
      · have hplace := h.1
        have hrest := hloop c (by rw [hmaps]; exact ((fits_succ heap).mp h).2)
          (by rw [hmaps, heapIndex_mapped h]; omega) fun x hx => by
            rw [hmaps, mapped, ← BitVec.add_assoc] at hx
            exact hfresh x (Within.of_add (k := 128) hx (by omega))
        rw [hmaps, typeOf_mem, nextMapping_mapped] at hrest
        simp only [htype, ne_eq, not_true_eq_false, if_false, hrest]
        split <;> omega
      · have hrest := hloop (if checkType s.mem mapFailed ≠ .null then c + 1 else c)
          (by rwa [hmaps]) (by rw [hmaps]; omega) fun x hx => by
            rw [hmaps] at hx
            exact hfresh x (hx.mono (by omega))
        rw [hmaps, typeOf_mem, hfull] at hrest
        simp only [htype, hrest, hfull]
        by_cases hnull : checkType s.mem mapFailed = .null
        · simp [hnull]
        · simp only [hnull, ne_eq, not_false_eq_true, if_true, if_false]
          omega

/-- **With a full table and a device at `MAP_FAILED`, every entry is copied.** -/
theorem fillLoop_full {N : ℕ} (heap : MappedHeap) (config : Pci.Config) (hN : N ≤ 128)
    (hdevice : checkType m₀ mapFailed ≠ .null)
    (hlow : ∀ x, Within (mapFailed + 0x24) 8 x → ¬ Within a (pciDeviceSize * N) x)
    (hapart : ∀ i < N, ∀ k < pciDeviceSize,
      ¬ Within a (pciDeviceSize * N) (l.entry i + BitVec.ofNat 32 k))
    (n j : ℕ) {s : Listing} (hj : j + n = N) (hs : Fits 0 s.maps) (hfull : ¬ Fits 1 s.maps)
    (hcopied : Copied l a m₀ s.mem j) :
    Copied l a m₀ (fillLoop heap.toHeapArray config l a (List.range' j n) j s).mem N := by
  induction n generalizing j s with
  | zero =>
    obtain rfl : j = N := hj
    exact hcopied
  | succ n ih =>
    have hmono : ∀ {x i}, i ≤ N → ¬ Within a (pciDeviceSize * N) x →
        ¬ Within a (pciDeviceSize * i) x :=
      fun hi hx hin => hx (hin.mono (Nat.mul_le_mul_left _ hi))
    obtain ⟨htype, hmaps⟩ := typeOf_of_mmap (s := s.printk j) config (l.entry j)
      (mmap_of_not_fits heap hs hfull)
    have hmem : (typeOf heap.toHeapArray config (l.entry j) (s.printk j)).2.mem = s.mem := rfl
    have hsame : checkType s.mem mapFailed = checkType m₀ mapFailed :=
      checkType_congr fun x hx => hcopied.frame x (hmono (by omega) (hlow x hx))
    have hnext := hcopied.copy (by omega) fun k hk =>
      hmono (by omega) (hapart j (by omega) k hk)
    rw [← hmem] at hnext
    rw [List.range'_succ, fillLoop]
    simp only [htype.trans hsame, hdevice, ne_eq, not_false_eq_true, if_true]
    generalize typeOf heap.toHeapArray config (l.entry j) (s.printk j) = r at hmaps hnext ⊢
    have hs' : Fits 0 r.2.maps := hmaps ▸ hs
    have hfull' : ¬ Fits 1 r.2.maps := hmaps ▸ hfull
    exact ih (j + 1) (by omega) hs' hfull' hnext

/-- The entries copied are the first devices of the list. -/
theorem Copied.devices (h : Copied l a m₀ m j) {c : ℕ} (hc : c ≤ j) (hj : j ≤ l.length) :
    (⟨a, c⟩ : PciDeviceList).devices m = (l.devices m₀).take c := by
  rw [PciDeviceList.devices, PciDeviceList.devices, ← List.map_take, List.take_range,
    min_eq_left (hc.trans hj)]
  exact List.map_congr_left fun i hi =>
    pciDevice_congr fun k hk => h.entries i ((List.mem_range.mp hi).trans_le hc) k hk

end Fill

section Filter

variable {config : Pci.Config} {l : DeviceList} {s t : Listing}

/-- The second pass, when the table is full: the block for the copies is unused heap, away from the
list and from what lies at `MAP_FAILED`. -/
theorem devices_fillLoop (heap : LoadedHeap) (h : Ready heap.toHeapArray l.toPciDeviceList s)
    (hdevice : checkType s.mem mapFailed ≠ .null) {i : Word} {c : ℕ}
    (hi : s.maps.heapIndex.toNat ≤ i.toNat) (hroom : i.toNat + 12 * l.length ≤ heapSize.toNat)
    (hc : c ≤ l.length) (hmem : t.mem = s.mem) (hs : Fits 0 t.maps) (hfull : ¬ Fits 1 t.maps) :
    (⟨heap.base + i, c⟩ : PciDeviceList).devices (fillLoop heap.toHeapArray config
      l.toPciDeviceList (heap.base + i) (List.range l.length) 0 t).mem =
        (l.devices s.mem).take c := by
  have hend := heap.fits
  have hle : i ≤ heapSize := Nat.le_trans (Nat.le_add_right _ _) hroom
  have hblock : (heap.base + i).toNat = _ := Heap.toNat_base_add hle
  have hstart : (heap.base + s.maps.heapIndex).toNat = _ :=
    Heap.toNat_base_add (Nat.le_trans hi hle)
  have hwithin : ∀ x, Within (heap.base + i) (pciDeviceSize * l.length) x →
      heap.base.toNat + i.toNat ≤ x.toNat ∧
        x.toNat < heap.base.toNat + i.toNat + 12 * l.length := by
    intro x hx
    rwa [Within.iff (by rw [hblock, pciDeviceSize]; omega), hblock] at hx
  refine Copied.devices (j := l.length) ?_ hc le_rfl
  rw [List.range_eq_range']
  refine fillLoop_full heap.toMappedHeap config l.length_le hdevice (fun x hx hin => ?_)
    (fun j hj k hk hin => h.apart j hj k hk ?_) l.length 0 (Nat.zero_add _) hs hfull
    ⟨fun j hj => absurd hj (Nat.not_lt_zero j), fun x _ => by rw [hmem]⟩
  · -- `MAP_FAILED` wraps around to the first addresses
    have hloaded := heap.loaded
    have hge := (hwithin x hin).1
    rw [Within.iff (by decide)] at hx
    have hx' := hx.2
    rw [show (mapFailed + 0x24 : Word).toNat = 0x23 by decide] at hx'
    omega
  · have hin' := hwithin _ hin
    rw [Unused, Within.iff (by rw [hstart]; omega), hstart]
    omega

/-- With room for it, the list is allocated. -/
theorem listSize_fits {i : Word} {c : ℕ} (hc : c ≤ 128)
    (hroom : i.toNat + 12 * c ≤ heapSize.toNat) :
    ¬ i + BitVec.ofNat 32 (c * pciDeviceSize) > heapSize := by
  have hsize := toNat_listSize hc
  have hheap : heapSize.toNat = 0x100000 := rfl
  intro hgt
  have hlt : heapSize.toNat < (i + BitVec.ofNat 32 (c * pciDeviceSize)).toNat := hgt
  rw [BitVec.toNat_add, hsize, Nat.mod_eq_of_lt (by omega)] at hlt
  omega

/-- **What a call lists**: the devices it finds no table entry for, if `MAP_FAILED` looks like a
device; otherwise nothing. -/
theorem devices_listDevices (heap : LoadedHeap) (config : Pci.Config)
    (h : Ready heap.toHeapArray l.toPciDeviceList s) :
    (listDevices heap.toHeapArray config l.toPciDeviceList s).1.devices
        (listDevices heap.toHeapArray config l.toPciDeviceList s).2.mem =
      if checkType s.mem mapFailed = .null then []
      else (l.devices s.mem).take (l.length - (maxMappings - s.maps.nextMapping)) := by
  have hroom := h.room
  have hcount := countLoop_fresh heap.toMappedHeap config l.toPciDeviceList
    (List.range l.length) 0 h.bounds (by rw [List.length_range]; omega)
    fun x hx => h.fresh x (hx.mono (by rw [List.length_range]; omega))
  have hmem := countLoop_mem heap.toMappedHeap config l.toPciDeviceList
    (List.range l.length) 0 s
  have hports := countLoop_ports heap.toMappedHeap config l.toPciDeviceList
    (List.range l.length) 0 s
  rw [List.length_range] at hports hcount
  obtain ⟨hnext, hindex⟩ := iterate_of_room heap.toMappedHeap l.length (p := s.ports) h.bounds
    (by rw [ports_fst]; omega)
  rw [← hports, ports_fst, ports_fst] at hnext hindex
  rw [listDevices]
  rcases hloop : countLoop heap.toHeapArray config l.toPciDeviceList (List.range l.length) 0 s
    with ⟨c, s₁⟩
  simp only [hloop, Nat.zero_add] at hcount hmem hnext hindex ⊢
  by_cases hlow : checkType s.mem mapFailed = .null
  · rw [if_pos hlow] at hcount ⊢
    rw [hcount]
    rfl
  rw [if_neg hlow] at hcount ⊢
  rw [← hcount]
  rcases Nat.eq_zero_or_pos c with rfl | hpos
  · rfl
  have hfull : s₁.maps.nextMapping = maxMappings := by omega
  have hsmall : c ≤ 128 := (show c ≤ l.length by omega).trans l.length_le
  have hfits : ¬ (s₁.printk c).maps.heapIndex + BitVec.ofNat 32 (c * pciDeviceSize) > heapSize :=
    listSize_fits hsmall (show s₁.maps.heapIndex.toNat + 12 * c ≤ heapSize.toNat by omega)
  rw [Heap.malloc_of_le hfits]
  refine devices_fillLoop heap h hlow (i := s₁.maps.heapIndex) (by omega) (by omega) (by omega)
    hmem ⟨hfull.le, BitVec.not_lt.mp hfits⟩ fun hroom => ?_
  have hlt : s₁.maps.nextMapping + 1 ≤ maxMappings := hroom.1
  omega

/-- Until the call returns, the pointer shows what has been listed. -/
theorem read_ahciDeviceList (heap : HeapArray) (config : Pci.Config) (l : PciDeviceList)
    (s : Listing) : (ahciDeviceList heap config l s).2.frames.read
      (ahciDeviceList heap config l s).1 = some (listDevices heap config l s).1 :=
  Frames.read_enter _ _

/-- …and then nothing. -/
theorem read_getAhciDevices (heap : HeapArray) (config : Pci.Config) (l : PciDeviceList)
    (s : Listing) : (getAhciDevices heap config l s).2.frames.read
      (getAhciDevices heap config l s).1 = none :=
  Frames.read_leave_enter _ _

/-- Until the call returns, the list is right exactly if what is listed are the devices with a
port. -/
theorem filters_ahciDeviceList_iff (heap : LoadedHeap) (config : Pci.Config)
    (h : Ready heap.toHeapArray l.toPciDeviceList s) :
    Filters config l.toPciDeviceList s
        (ahciDeviceList heap.toHeapArray config l.toPciDeviceList s) ↔
      (l.devices s.mem).filter (isAhci config s.mem) =
        if checkType s.mem mapFailed = .null then []
        else (l.devices s.mem).take (l.length - (maxMappings - s.maps.nextMapping)) := by
  rw [← devices_listDevices heap config h, eq_comm]
  constructor
  · rintro ⟨list, hread, hdevices⟩
    rw [read_ahciDeviceList] at hread
    obtain rfl := Option.some.inj hread
    exact hdevices
  · exact fun hdevices => ⟨_, read_ahciDeviceList _ _ _ _, hdevices⟩

/-- **No call ever returns the right list**: the pointer returned shows none.  Up to its `return`
the call has the right one exactly if the devices with a port are those it finds no table entry for,
or there are none. -/
theorem filters_getAhciDevices (heap : LoadedHeap) (config : Pci.Config) (l : DeviceList)
    (s : Listing) :
    ¬ Filters config l.toPciDeviceList s
        (getAhciDevices heap.toHeapArray config l.toPciDeviceList s) ∧
      (Ready heap.toHeapArray l.toPciDeviceList s →
        (Filters config l.toPciDeviceList s
            (ahciDeviceList heap.toHeapArray config l.toPciDeviceList s) ↔
          (l.devices s.mem).filter (isAhci config s.mem) =
            if checkType s.mem mapFailed = .null then []
            else (l.devices s.mem).take (l.length - (maxMappings - s.maps.nextMapping)))) := by
  refine ⟨fun ⟨list, hread, _⟩ => ?_, filters_ahciDeviceList_iff heap config⟩
  rw [read_getAhciDevices] at hread
  cases hread

/-- A heap at 4M. -/
def heapAt4M : LoadedHeap := ⟨Mappings.heapAt4M, by decide⟩

/-- Memory is zero but for a list at 3M, the status of a port behind a BAR0 at `0xFEBF0000` with a
disk, and what is read as one at `MAP_FAILED`. -/
def memTwoDisks (failed : List Byte) : Mem :=
  ((Mem.store (fun _ => 0) 0x300000 [0, 31, 2, 0, 0x86, 0x80, 0x22, 0x29, 0, 0, 0, 0,
    0, 31, 5, 0, 0x86, 0x80, 0x26, 0x29]).store 0xFEBF0028 [0x13, 0x01]).store 0x27 failed

/-- The configuration space of this machine, as far as it is asked: 0:31.2 has the BAR0. -/
def configTwoDisks : Pci.Config := fun a => if a &&& 0x700 = 0x200 then 0xFEBF0000 else 0xFEBE0000

/-- The two devices, both AHCI controllers, the first with the disk. -/
def twoDevices : DeviceList := ⟨⟨0x300000, 2⟩, by decide⟩

/-- `n` ports have been mapped so far. -/
def portsMapped (n : ℕ) (failed : List Byte) : Listing where
  mem := memTwoDisks failed
  maps := ⟨(List.range n).map fun i =>
    ⟨0x400000 + BitVec.ofNat 32 (128 * i), hbaPortSize, protReadWrite, true⟩,
    BitVec.ofNat 32 (128 * n)⟩
  frames := .empty
  handed := []
  offsets := []
  printed := []

theorem ready_twoDevices {n : ℕ} (hn : n ≤ maxMappings) {failed : List Byte}
    (hfailed : failed.length ≤ 2) :
    Ready heapAt4M.toHeapArray twoDevices.toPciDeviceList (portsMapped n failed) := by
  have hbound : n ≤ 256 := hn
  have hindex : (portsMapped n failed).maps.heapIndex.toNat = 128 * n := by
    simp only [portsMapped]
    rw [BitVec.toNat_ofNat, Nat.mod_eq_of_lt (by omega)]
  have hheap : heapSize.toNat = 0x100000 := rfl
  have hbase : (heapAt4M.toHeapArray.base + (portsMapped n failed).maps.heapIndex).toNat =
      0x400000 + 128 * n := by
    rw [BitVec.toNat_add, hindex, show heapAt4M.toHeapArray.base.toNat = 0x400000 from rfl,
      Nat.mod_eq_of_lt (by omega)]
  have hunused : ∀ x, Unused heapAt4M.toHeapArray (portsMapped n failed).maps x →
      0x400000 ≤ x.toNat ∧ x.toNat < 0x500000 := by
    intro x hx
    rw [Unused, Within.iff (by rw [hbase, hindex]; omega), hbase, hindex] at hx
    omega
  refine ⟨⟨?_, by rw [hindex, hheap]; omega⟩, ?_, fun x hx => ?_, fun i hi k hk hin => ?_⟩
  · simpa [Mappings.nextMapping, portsMapped] using hn
  · rw [hindex, hheap, show twoDevices.toPciDeviceList.length = 2 from rfl]
    omega
  · have hrange := hunused x hx
    have haway {a : Word} {bs : List Byte} (ha : a.toNat + bs.length ≤ 0x400000 ∨
        0x500000 ≤ a.toNat ∧ a.toNat + bs.length ≤ 2 ^ 32) : ¬ Within a bs.length x := by
      rw [Within.iff (by omega)]
      omega
    change memTwoDisks failed x = 0
    rw [memTwoDisks, store_of_not_within (hfailed.trans (by decide)) (haway (.inl ?_)),
      store_of_not_within (by decide) (haway (.inr (by decide))),
      store_of_not_within (by decide) (haway (.inl (by decide)))]
    rw [show (0x27 : Word).toNat = 0x27 from rfl]
    omega
  · have hentry : i < 2 := hi
    have hge := (hunused _ hin).1
    rw [PciDeviceList.entry] at hge
    obtain rfl | rfl : i = 0 ∨ i = 1 := by omega
    all_goals
      simp only [twoDevices, pciDeviceSize] at hge hk
      bv_omega

/-- With one table entry left and a device at `MAP_FAILED`, the list is right: the first device has
the disk, and it is the one too many.  Then the pointer to it is returned. -/
theorem filters_getAhciDevices_twoDevices :
    ¬ Filters configTwoDisks twoDevices.toPciDeviceList (portsMapped 255 [0x13, 0x01])
        (getAhciDevices heapAt4M.toHeapArray configTwoDisks twoDevices.toPciDeviceList
          (portsMapped 255 [0x13, 0x01])) ∧
      Filters configTwoDisks twoDevices.toPciDeviceList (portsMapped 255 [0x13, 0x01])
        (ahciDeviceList heapAt4M.toHeapArray configTwoDisks twoDevices.toPciDeviceList
          (portsMapped 255 [0x13, 0x01])) := by
  obtain ⟨hno, hiff⟩ := filters_getAhciDevices heapAt4M configTwoDisks twoDevices
    (portsMapped 255 [0x13, 0x01])
  exact ⟨hno, (hiff (ready_twoDevices (by decide) (by decide))).mpr (by decide +kernel)⟩

/-- After boot no list with the disk in it is returned, nor any other. -/
theorem not_filters : ¬ ∀ (heap : LoadedHeap) (config : Pci.Config) (l : DeviceList) (s : Listing),
    Ready heap.toHeapArray l.toPciDeviceList s →
      Filters config l.toPciDeviceList s
        (getAhciDevices heap.toHeapArray config l.toPciDeviceList s) := by
  intro hall
  obtain ⟨list, hread, -⟩ := hall heapAt4M configTwoDisks twoDevices (portsMapped 0 [])
    (ready_twoDevices (by decide) (by decide))
  rw [read_getAhciDevices] at hread
  cases hread

end Filter

end Disks

end HuskyKernel
