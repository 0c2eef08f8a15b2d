import HuskyKernel.Logic.Frames
import HuskyKernel.System.Mappings
import HuskyKernel.Drivers.Disk
import HuskyKernel.Drivers.Pci

/-!
# Kernel/Disks — listing the disks, again and again

`get_ahci_devices` goes through its list twice, and each time maps a port for each device.  No
mapping is ever given back.  `allLive_iff`: each pointer handed to `check_type` is a live mapping as
long as the table and the heap have room for both passes of each call; the table is for 128 devices
in all (`devices_le_of_allLive`).
-/

namespace HuskyKernel

open Mem

/-- A list of PCI devices, no longer than an enumeration makes it. -/
structure DeviceList extends PciDeviceList where
  length_le : length ≤ Pci.maxPciDevices

namespace Disks

/-- `sizeof(HBA_PORT)`. -/
def hbaPortSize : Word := 128#32

/-- `PROT_READ | PROT_WRITE`. -/
def protReadWrite : Word := 3#32

/-- Memory, the mapping table, the lists that are locals of a call, the pointers handed to
`check_type`, each with the table it was handed over under, the offsets given to `mmap`, and the
pointers given to `printk` for a format. -/
structure Listing where
  mem : Mem
  maps : Mappings
  frames : Frames PciDeviceList
  handed : List (Word × Mappings)
  offsets : List Word
  printed : List Word

/-- `printk` of a number: the number is the address of the format. -/
def Listing.printk (s : Listing) (i : ℕ) : Listing :=
  { s with printed := s.printed ++ [BitVec.ofNat 32 i] }

section Functions

variable (heap : HeapArray) (config : Pci.Config) (l : PciDeviceList)

/-- `get_hba_port`. -/
def getHbaPort (bus device function : Byte) (s : Listing) : Word × Listing :=
  let pciConfig := Pci.readConfigSpace config bus device function 0x10
  let barAddress := s.mem.word pciConfig
  let (hbaPort, maps) := s.maps.mmap heap hbaPortSize protReadWrite
  (hbaPort, { s with maps, offsets := s.offsets ++ [barAddress] })

/-- `check_type(get_hba_port(dev->bus, dev->device, dev->function))`. -/
def typeOf (dev : Word) (s : Listing) : AhciDev × Listing :=
  let d := s.mem.pciDevice dev
  let (hbaPort, s) := getHbaPort heap config d.bus d.device d.function s
  (checkType s.mem hbaPort, { s with handed := s.handed ++ [(hbaPort, s.maps)] })

/-- The first pass, over the indices left: count. -/
def countLoop : List ℕ → ℕ → Listing → ℕ × Listing
  | [], ahciCount, s => (ahciCount, s)
  | i :: is, ahciCount, s =>
      let (type, s) := typeOf heap config (l.entry i) s
      countLoop is (if type ≠ .null then ahciCount + 1 else ahciCount) s

/-- The second pass: copy. -/
def fillLoop (ahciDevices : Word) : List ℕ → ℕ → Listing → Listing
  | [], _, s => s
  | i :: is, index, s =>
      let (type, s) := typeOf heap config (l.entry i) (s.printk i)
      if type ≠ .null then
        let dev := s.mem.load (l.entry i) pciDeviceSize
        let a := ahciDevices + BitVec.ofNat 32 (pciDeviceSize * index)
        fillLoop ahciDevices is (index + 1) { s with mem := s.mem.store a dev }
      else fillLoop ahciDevices is index s

/-- Both passes of `get_ahci_devices`, and what is to go into `ahci_device_list`. -/
def listDevices (s : Listing) : PciDeviceList × Listing :=
  let (ahciCount, s) := countLoop heap config l (List.range l.length) 0 s
  let s := s.printk ahciCount
  let (ahciDevices, heapIndex) :=
    malloc heap (BitVec.ofNat 32 (ahciCount * pciDeviceSize)) s.maps.heapIndex
  let s := { s with maps := { s.maps with heapIndex } }
  (⟨ahciDevices, ahciCount⟩, fillLoop heap config l ahciDevices (List.range l.length) 0 s)

/-- `get_ahci_devices` up to its `return`: `val` points to the local `ahci_device_list`. -/
def ahciDeviceList (s : Listing) : ℕ × Listing :=
  let (list, s) := listDevices heap config l s
  let (val, frames) := s.frames.enter list
  (val, { s with frames })

/-- `get_ahci_devices`: the local is gone when the pointer to it is returned. -/
def getAhciDevices (s : Listing) : ℕ × Listing :=
  let (val, s) := ahciDeviceList heap config l s
  (val, { s with frames := s.frames.leave })

end Functions

/-! ## Mapping ports -/

section Map

variable {heap : MappedHeap} {s : Mappings} {n : ℕ}

/-- `n` more ports fit the table and the heap. -/
def Fits (n : ℕ) (s : Mappings) : Prop :=
  s.nextMapping + n ≤ maxMappings ∧ s.heapIndex.toNat + 128 * n ≤ heapSize.toNat

instance : Decidable (Fits n s) := inferInstanceAs (Decidable (_ ∧ _))

/-- One port more. -/
def mapped (heap : HeapArray) (s : Mappings) : Mappings :=
  ⟨s.mappings ++ [⟨heap.base + s.heapIndex, hbaPortSize, protReadWrite, true⟩],
    s.heapIndex + hbaPortSize⟩

theorem Fits.heapIndex_le (h : Fits n s) : s.heapIndex ≤ heapSize :=
  (Nat.le_add_right _ _).trans h.2

theorem Fits.mono {k : ℕ} (h : Fits n s) (hk : k ≤ n) : Fits k s :=
  ⟨by have := h.1; omega, by have := h.2; omega⟩

theorem nextMapping_mapped (heap : HeapArray) (s : Mappings) :
    (mapped heap s).nextMapping = s.nextMapping + 1 := List.length_append

theorem heapIndex_mapped (h : Fits 1 s) :
    (mapped heap.toHeapArray s).heapIndex.toNat = s.heapIndex.toNat + 128 := by
  have hroom := h.2
  simp only [mapped, hbaPortSize, heapSize] at *
  bv_omega

theorem fits_succ (heap : MappedHeap) :
    Fits (n + 1) s ↔ Fits 1 s ∧ Fits n (mapped heap.toHeapArray s) := by
  constructor
  · intro h
    have h1 := h.mono (show 1 ≤ n + 1 by omega)
    refine ⟨h1, ?_, ?_⟩
    · rw [nextMapping_mapped]
      have := h.1
      omega
    · rw [heapIndex_mapped h1]
      have := h.2
      omega
  · rintro ⟨h1, hnext, hindex⟩
    rw [nextMapping_mapped] at hnext
    rw [heapIndex_mapped h1] at hindex
    exact ⟨by omega, by omega⟩

/-- **A port that fits** is mapped to the next block of the heap. -/
theorem mmap_of_fits (heap : MappedHeap) (h : Fits 1 s) :
    s.mmap heap.toHeapArray hbaPortSize protReadWrite =
    (heap.base + s.heapIndex, mapped heap.toHeapArray s) := by
  have hfull : ¬ s.nextMapping ≥ maxMappings := by
    have := h.1
    omega
  have hroom : ¬ s.heapIndex + hbaPortSize > heapSize := by
    have := h.2
    simp only [hbaPortSize, heapSize] at *
    bv_omega
  rw [Mappings.mmap, if_neg hfull, Heap.malloc_of_le hroom]
  exact if_neg (Heap.base_add_ne_zero h.heapIndex_le)

/-- …and any other is not mapped. -/
theorem mmap_of_not_fits (heap : MappedHeap) (hs : Fits 0 s) (h : ¬ Fits 1 s) :
    s.mmap heap.toHeapArray hbaPortSize protReadWrite = (mapFailed, s) := by
  by_cases hfull : s.nextMapping ≥ maxMappings
  · rw [Mappings.mmap, if_pos hfull]
  · have hroom : s.heapIndex + hbaPortSize > heapSize := by
      have hnext : ¬ s.heapIndex.toNat + 128 * 1 ≤ heapSize.toNat :=
        fun hle => h ⟨by omega, hle⟩
      have hle := hs.2
      simp only [hbaPortSize, heapSize] at *
      bv_omega
    rw [Mappings.mmap, if_neg hfull, Heap.malloc_of_gt hroom]
    rfl

end Map

/-! ## Handing them over -/

section Hand

variable {heap : MappedHeap} {config : Pci.Config} {l : PciDeviceList} {dev : Word}
  {s : Listing} {n : ℕ}

/-- The pointer is a mapping, alive when it was handed over. -/
def Live (h : Word × Mappings) : Prop := h.1 ≠ mapFailed ∧ 0 < Mappings.entries h.1 h.2.mappings

/-- The table, and the pointers handed over: one device further. -/
def hand (heap : HeapArray) (p : Mappings × List (Word × Mappings)) :
    Mappings × List (Word × Mappings) :=
  let (hbaPort, maps) := p.1.mmap heap hbaPortSize protReadWrite
  (maps, p.2 ++ [(hbaPort, maps)])

/-- What `hand` is about. -/
def Listing.ports (s : Listing) : Mappings × List (Word × Mappings) := (s.maps, s.handed)

theorem ports_fst : s.ports.1 = s.maps := rfl

theorem typeOf_of_mmap (config : Pci.Config) (dev : Word) {p : Word} {maps : Mappings}
    (h : s.maps.mmap heap.toHeapArray hbaPortSize protReadWrite = (p, maps)) :
    (typeOf heap.toHeapArray config dev s).1 = checkType s.mem p ∧
      (typeOf heap.toHeapArray config dev s).2.maps = maps := by
  rw [typeOf, getHbaPort, h]
  exact ⟨rfl, rfl⟩

theorem typeOf_ports : (typeOf heap.toHeapArray config dev s).2.ports =
    hand heap.toHeapArray s.ports := rfl

theorem typeOf_mem : (typeOf heap.toHeapArray config dev s).2.mem = s.mem := rfl

theorem countLoop_ports (heap : MappedHeap) (config : Pci.Config) (l : PciDeviceList) :
    ∀ (is : List ℕ) (c : ℕ) (s : Listing),
    (countLoop heap.toHeapArray config l is c s).2.ports =
      (hand heap.toHeapArray)^[is.length] s.ports
  | [], _, _ => rfl
  | i :: is, c, s => by
      simp only [countLoop, countLoop_ports heap config l is, typeOf_ports, List.length_cons,
        Function.iterate_succ_apply]

theorem countLoop_mem (heap : MappedHeap) (config : Pci.Config) (l : PciDeviceList) :
    ∀ (is : List ℕ) (c : ℕ) (s : Listing),
    (countLoop heap.toHeapArray config l is c s).2.mem = s.mem
  | [], _, _ => rfl
  | i :: is, c, s => by
      simp only [countLoop, countLoop_mem heap config l is, typeOf_mem]

theorem fillLoop_ports (p : Word) : ∀ (is : List ℕ) (j : ℕ) (s : Listing),
    (fillLoop heap.toHeapArray config l p is j s).ports =
      (hand heap.toHeapArray)^[is.length] s.ports
  | [], _, _ => rfl
  | i :: is, j, s => by
      rw [fillLoop, List.length_cons, Function.iterate_succ_apply]
      by_cases ht : (typeOf heap.toHeapArray config (l.entry i) (s.printk i)).1 ≠ .null
      · simp only [if_pos ht]
        rw [fillLoop_ports p is]
        exact congrArg _ (typeOf_ports (s := s.printk i))
      · simp only [if_neg ht]
        rw [fillLoop_ports p is]
        exact congrArg _ (typeOf_ports (s := s.printk i))

/-- A new mapping is alive. -/
theorem live_mapped {maps : Mappings} (h : Fits 1 maps) :
    Live (heap.base + maps.heapIndex, mapped heap.toHeapArray maps) := by
  refine ⟨Mappings.base_add_ne_mapFailed h.heapIndex_le, ?_⟩
  rw [mapped, Mappings.entries_append, Mappings.entries_cons, if_pos ⟨rfl, rfl⟩]
  omega

theorem hand_of_fits {p : Mappings × List (Word × Mappings)} (h : Fits 1 p.1) :
    hand heap.toHeapArray p = (mapped heap.toHeapArray p.1,
      p.2 ++ [(heap.base + p.1.heapIndex, mapped heap.toHeapArray p.1)]) := by
  rw [hand, mmap_of_fits heap h]

theorem hand_of_not_fits {p : Mappings × List (Word × Mappings)} (hs : Fits 0 p.1)
    (h : ¬ Fits 1 p.1) : hand heap.toHeapArray p = (p.1, p.2 ++ [(mapFailed, p.1)]) := by
  rw [hand, mmap_of_not_fits heap hs h]

/-- **`n` ports handed over are alive exactly if they fit.** -/
theorem live_iterate_iff (heap : MappedHeap) : ∀ (n : ℕ) {p : Mappings × List (Word × Mappings)},
    Fits 0 p.1 → ((∀ h ∈ ((hand heap.toHeapArray)^[n] p).2, Live h) ↔
      (∀ h ∈ p.2, Live h) ∧ Fits n p.1)
  | 0, p, hs => (and_iff_left hs).symm
  | n + 1, p, hs => by
      rw [Function.iterate_succ_apply]
      by_cases h : Fits 1 p.1
      · have hnext := (fits_succ (n := 0) heap).mp h
        rw [hand_of_fits h, live_iterate_iff heap n hnext.2, fits_succ heap,
          List.forall_mem_append, List.forall_mem_singleton]
        exact ⟨fun hl => ⟨hl.1.1, h, hl.2⟩, fun hl => ⟨⟨hl.1, live_mapped h⟩, hl.2.2⟩⟩
      · rw [hand_of_not_fits hs h,
          live_iterate_iff heap n (p := (p.1, p.2 ++ [(mapFailed, p.1)])) hs,
          List.forall_mem_append, List.forall_mem_singleton]
        exact ⟨fun hl => absurd rfl hl.1.2.1, fun hl => absurd (hl.2.mono (by omega)) h⟩

/-- A mapping that fails, or does not, leaves table and heap within their bounds. -/
theorem fits_zero_iterate (heap : MappedHeap) : ∀ (n : ℕ) {p : Mappings × List (Word × Mappings)},
    Fits 0 p.1 → Fits 0 ((hand heap.toHeapArray)^[n] p).1
  | 0, p, hs => hs
  | n + 1, p, hs => by
      rw [Function.iterate_succ_apply]
      by_cases h : Fits 1 p.1
      · rw [hand_of_fits h]
        exact fits_zero_iterate heap n ((fits_succ (n := 0) heap).mp h).2
      · rw [hand_of_not_fits hs h]
        exact fits_zero_iterate heap n hs

/-- What `n` ports take, with a heap that is large enough: entries as long as there are any. -/
theorem iterate_of_room (heap : MappedHeap) :
    ∀ (n : ℕ) {p : Mappings × List (Word × Mappings)}, Fits 0 p.1 →
      p.1.heapIndex.toNat + 128 * n ≤ heapSize.toNat →
    ((hand heap.toHeapArray)^[n] p).1.nextMapping = min (p.1.nextMapping + n) maxMappings ∧
      ((hand heap.toHeapArray)^[n] p).1.heapIndex.toNat =
        p.1.heapIndex.toNat + 128 * min n (maxMappings - p.1.nextMapping)
  | 0, p, hs, _ => by
      have := hs.1
      exact ⟨by rw [Function.iterate_zero, id]; omega, by rw [Function.iterate_zero, id]; omega⟩
  | n + 1, p, hs, hroom => by
      rw [Function.iterate_succ_apply]
      by_cases h : Fits 1 p.1
      · have hnext := ((fits_succ (n := 0) heap).mp h).2
        have hfree := h.1
        have hrest := iterate_of_room heap n (p := (mapped heap.toHeapArray p.1,
          p.2 ++ [(heap.base + p.1.heapIndex, mapped heap.toHeapArray p.1)])) hnext
          (by rw [heapIndex_mapped h]; omega)
        rw [hand_of_fits h, hrest.1, hrest.2, nextMapping_mapped, heapIndex_mapped h]
        exact ⟨by omega, by omega⟩
      · have hrest := iterate_of_room heap n (p := (p.1, p.2 ++ [(mapFailed, p.1)])) hs
          (by dsimp only; omega)
        have hfull : p.1.nextMapping = maxMappings := by
          have := hs.1
          by_contra hne
          exact h ⟨by omega, by omega⟩
        rw [hand_of_not_fits hs h, hrest.1, hrest.2]
        dsimp only
        exact ⟨by omega, by omega⟩

/-- What `n` ports take, if they fit. -/
theorem iterate_of_fits (heap : MappedHeap) {p : Mappings × List (Word × Mappings)}
    (h : Fits n p.1) :
    ((hand heap.toHeapArray)^[n] p).1.nextMapping = p.1.nextMapping + n ∧
      ((hand heap.toHeapArray)^[n] p).1.heapIndex.toNat = p.1.heapIndex.toNat + 128 * n := by
  have hnext := h.1
  have hroom := iterate_of_room heap n (h.mono (Nat.zero_le _)) h.2
  rw [hroom.1, hroom.2]
  exact ⟨by omega, by omega⟩

/-- How many of the `n` blocks from `a` on look like a device to `check_type`. -/
def devicesFrom (m : Mem) (a : Word) : ℕ → ℕ
  | 0 => 0
  | n + 1 => (if checkType m a ≠ .null then 1 else 0) + devicesFrom m (a + hbaPortSize) n

theorem devicesFrom_le (m : Mem) : ∀ (a : Word) (n : ℕ), devicesFrom m a n ≤ n
  | _, 0 => le_rfl
  | a, n + 1 => by
      have hrec := devicesFrom_le m (a + hbaPortSize) n
      rw [devicesFrom]
      split <;> omega

/-- The first pass counts the blocks of the heap that look like a device. -/
theorem countLoop_of_fits (heap : MappedHeap) (config : Pci.Config) (l : PciDeviceList) :
    ∀ (is : List ℕ) (c : ℕ) {s : Listing}, Fits is.length s.maps →
    (countLoop heap.toHeapArray config l is c s).1 =
      c + devicesFrom s.mem (heap.base + s.maps.heapIndex) is.length
  | [], _, _, _ => rfl
  | i :: is, c, s, h => by
      obtain ⟨h1, hn⟩ := (fits_succ heap).mp h
      obtain ⟨htype, hmaps⟩ := typeOf_of_mmap config (l.entry i) (mmap_of_fits heap h1)
      have hrest := countLoop_of_fits heap config l is
        (if checkType s.mem (heap.base + s.maps.heapIndex) ≠ .null then c + 1 else c) (hmaps ▸ hn)
      rw [hmaps, typeOf_mem, mapped, ← BitVec.add_assoc] at hrest
      rw [countLoop, List.length_cons, devicesFrom]
      simp only [htype]
      rw [hrest]
      split <;> omega

/-- Behind a `malloc`. -/
def afterMalloc (heap : HeapArray) (size : Word) (s : Mappings) : Mappings :=
  ⟨s.mappings, (malloc heap size s.heapIndex).2⟩

/-- `ahci_count * sizeof(struct pci_device)`. -/
theorem toNat_listSize {c : ℕ} (hc : c ≤ 128) :
    (BitVec.ofNat 32 (c * pciDeviceSize)).toNat = 12 * c := by
  simp only [pciDeviceSize]
  rw [BitVec.toNat_ofNat, Nat.mod_eq_of_lt (by omega), Nat.mul_comm]

/-- Room behind the block for the list. -/
theorem fits_malloc {s : Mappings} {c n : ℕ} (hs : Fits 0 s) (hc : c ≤ n) (hn : n ≤ 128) :
    Fits n (afterMalloc heap.toHeapArray (BitVec.ofNat 32 (c * pciDeviceSize)) s) ↔
      s.nextMapping + n ≤ maxMappings ∧
        s.heapIndex.toNat + 12 * c + 128 * n ≤ heapSize.toNat := by
  have hle := hs.2
  have hsize := toNat_listSize (hc.trans hn)
  rw [Fits, Mappings.nextMapping, afterMalloc]
  generalize BitVec.ofNat 32 (c * pciDeviceSize) = size at hsize ⊢
  by_cases hgt : s.heapIndex + size > heapSize
  · rw [Heap.malloc_of_gt hgt]
    have hover : heapSize.toNat < s.heapIndex.toNat + 12 * c := by
      simp only [heapSize] at *
      bv_omega
    refine ⟨fun h => ?_, fun h => by have := h.2; omega⟩
    have hindex : s.heapIndex.toNat + 128 * n ≤ heapSize.toNat := h.2
    omega
  · rw [Heap.malloc_of_le hgt]
    have hindex : (s.heapIndex + size).toNat = s.heapIndex.toNat + 12 * c := by
      simp only [heapSize] at *
      bv_omega
    simp only [hindex]
    exact Iff.rfl

theorem fits_zero_malloc {s : Mappings} (hs : Fits 0 s) (size : Word) :
    Fits 0 (afterMalloc heap.toHeapArray size s) :=
  ⟨hs.1, Heap.malloc_snd_le hs.2⟩

/-- Table and heap have room for both passes over `n` devices, and for the list in between. -/
def Roomy (heap : HeapArray) (m : Mem) (s : Mappings) (n : ℕ) : Prop :=
  s.nextMapping + 2 * n ≤ maxMappings ∧
    s.heapIndex.toNat + 256 * n + 12 * devicesFrom m (heap.base + s.heapIndex) n ≤ heapSize.toNat

/-- What a call does to table and heap index: both passes, and the `malloc` in between. -/
theorem getAhciDevices_ports (heap : MappedHeap) (config : Pci.Config) (l : PciDeviceList)
    (s : Listing) :
    let p := (hand heap.toHeapArray)^[l.length] s.ports
    let c := (countLoop heap.toHeapArray config l (List.range l.length) 0 s).1
    (getAhciDevices heap.toHeapArray config l s).2.ports =
      (hand heap.toHeapArray)^[l.length]
        (afterMalloc heap.toHeapArray (BitVec.ofNat 32 (c * pciDeviceSize)) p.1, p.2) := by
  have hcount := countLoop_ports heap config l (List.range l.length) 0 s
  rw [List.length_range] at hcount
  rw [show (getAhciDevices heap.toHeapArray config l s).2.ports =
    (listDevices heap.toHeapArray config l s).2.ports from rfl]
  simp only [listDevices]
  rw [fillLoop_ports, List.length_range, ← hcount]
  rfl

/-- A call keeps table and heap within their bounds. -/
theorem fits_zero_getAhciDevices {s : Listing} (hs : Fits 0 s.maps) :
    Fits 0 (getAhciDevices heap.toHeapArray config l s).2.maps := by
  have hfits : Fits 0 (getAhciDevices heap.toHeapArray config l s).2.ports.1 := by
    rw [getAhciDevices_ports heap config l s]
    exact fits_zero_iterate heap _ (fits_zero_malloc (fits_zero_iterate heap _ hs) _)
  exact hfits

theorem Roomy.fits {m : Mem} {maps : Mappings} (h : Roomy heap.toHeapArray m maps n) :
    Fits n maps := ⟨by have := h.1; omega, by have := h.2; omega⟩

/-- With room for the first pass, there is room for the second exactly if there is for the call. -/
theorem fits_second_iff (config : Pci.Config) (l : DeviceList) {s : Listing}
    (hfits : Fits l.length s.maps) :
    let maps := ((hand heap.toHeapArray)^[l.length] s.ports).1
    let c := (countLoop heap.toHeapArray config l.toPciDeviceList (List.range l.length) 0 s).1
    Fits l.length (afterMalloc heap.toHeapArray (BitVec.ofNat 32 (c * pciDeviceSize)) maps) ↔
      Roomy heap.toHeapArray s.mem s.maps l.length := by
  obtain ⟨hnext, hindex⟩ := iterate_of_fits heap (p := s.ports) hfits
  have hs := fits_zero_iterate heap l.length (p := s.ports) (hfits.mono (Nat.zero_le _))
  have hcount := countLoop_of_fits heap config l.toPciDeviceList (List.range l.length) 0
    (by rwa [List.length_range])
  rw [List.length_range, Nat.zero_add] at hcount
  simp only [hcount]
  rw [fits_malloc hs (devicesFrom_le ..) l.length_le, hnext, hindex, Roomy, ports_fst]
  exact ⟨fun h => ⟨by omega, by omega⟩, fun h => ⟨by omega, by omega⟩⟩

/-- **One call**: the pointers it hands over are alive exactly if there is room for it. -/
theorem live_getAhciDevices_iff (l : DeviceList) {s : Listing} (hs : Fits 0 s.maps) :
    (∀ h ∈ (getAhciDevices heap.toHeapArray config l.toPciDeviceList s).2.handed, Live h) ↔
      (∀ h ∈ s.handed, Live h) ∧ Roomy heap.toHeapArray s.mem s.maps l.length := by
  have hports := congrArg Prod.snd (getAhciDevices_ports heap config l.toPciDeviceList s)
  have hs₁ := fits_zero_iterate heap l.length (p := s.ports) hs
  rw [show (getAhciDevices heap.toHeapArray config l.toPciDeviceList s).2.handed = _ from hports,
    live_iterate_iff heap _ (fits_zero_malloc hs₁ _), live_iterate_iff heap _ hs, and_assoc]
  refine and_congr_right fun _ => ?_
  exact ⟨fun h => (fits_second_iff config l h.1).mp h.2,
    fun h => ⟨h.fits, (fits_second_iff config l h.fits).mpr h⟩⟩

/-- A call with room takes two entries for each device. -/
theorem nextMapping_getAhciDevices (l : DeviceList) {s : Listing}
    (hroomy : Roomy heap.toHeapArray s.mem s.maps l.length) :
    (getAhciDevices heap.toHeapArray config l.toPciDeviceList s).2.maps.nextMapping =
      s.maps.nextMapping + 2 * l.length := by
  have hports := congrArg Prod.fst (getAhciDevices_ports heap config l.toPciDeviceList s)
  rw [show (getAhciDevices heap.toHeapArray config l.toPciDeviceList s).2.maps = _ from hports,
    (iterate_of_fits heap ((fits_second_iff config l hroomy.fits).mpr hroomy)).1]
  have hfirst := (iterate_of_fits heap (p := s.ports) hroomy.fits).1
  simp only [Listing.ports, afterMalloc, Mappings.nextMapping] at hfirst ⊢
  omega

end Hand

/-! ## Listing again and again -/

section Runs

/-- What reaches the table, or the heap under it: an `lsdisks`, with the configuration space and
memory as it finds them, and a `malloc` of anyone else. -/
inductive Op where
  | getAhciDevices (config : Pci.Config) (m : Mem) (l : DeviceList)
  | malloc (size : Word)

/-- From boot on, with the pointer each call returns. -/
def service (heap : HeapArray) : Service Op (Option ℕ) Listing where
  boot := ⟨fun _ => 0, Mappings.boot, .empty, [], [], []⟩
  call := fun s op =>
    match op with
    | .getAhciDevices config m l =>
        let (val, s) := getAhciDevices heap config l.toPciDeviceList { s with mem := m }
        (some val, s)
    | .malloc size => (none, { s with maps :=
        { s.maps with heapIndex := (malloc heap size s.maps.heapIndex).2 } })

/-- There is room for the call, in the state it is made in. -/
def Op.Roomy (heap : HeapArray) (s : Listing) : Op → Prop
  | .getAhciDevices _ m l => Disks.Roomy heap m s.maps l.length
  | .malloc _ => True

/-- Every pointer handed to `check_type` so far was a live mapping. -/
def AllLive (s : Listing) : Prop := ∀ h ∈ s.handed, Live h

variable {heap : MappedHeap}

theorem fits_zero_boot : Fits 0 Mappings.boot := by decide

/-- One call more. -/
theorem allLive_call_iff {s : Listing} (hs : Fits 0 s.maps) (op : Op) :
    AllLive ((service heap.toHeapArray).call s op).2 ↔
      AllLive s ∧ op.Roomy heap.toHeapArray s := by
  cases op with
  | getAhciDevices config m l => exact live_getAhciDevices_iff (s := { s with mem := m }) l hs
  | malloc size => exact (and_iff_left trivial).symm

theorem fits_zero_call {s : Listing} (hs : Fits 0 s.maps) (op : Op) :
    Fits 0 ((service heap.toHeapArray).call s op).2.maps := by
  cases op with
  | getAhciDevices config m l => exact fits_zero_getAhciDevices (s := { s with mem := m }) hs
  | malloc size => exact fits_zero_malloc hs size

theorem fits_zero_run (heap : MappedHeap) (ops : List Op) :
    Fits 0 ((service heap.toHeapArray).state ops).maps :=
  (service heap.toHeapArray).keeps (P := fun s => Fits 0 s.maps) fits_zero_boot
    (fun _ op hs => fits_zero_call hs op) ops

/-- **Over a whole run, every pointer is alive exactly if each call had room.** -/
theorem allLive_iff (heap : MappedHeap) (ops : List Op) :
    AllLive ((service heap.toHeapArray).state ops) ↔
      (service heap.toHeapArray).Each (fun s op => op.Roomy heap.toHeapArray s) ops :=
  (service heap.toHeapArray).each_iff (I := fun s => Fits 0 s.maps)
    ⟨fits_zero_boot, fun _ h => absurd h List.not_mem_nil⟩
    (fun _ op hs => fits_zero_call hs op) (fun _ op hs => allLive_call_iff hs op) ops

/-- The devices a call goes through. -/
def Op.devices : Op → ℕ
  | .getAhciDevices _ _ l => l.length
  | .malloc _ => 0

theorem nextMapping_call {s : Listing} {op : Op} (h : op.Roomy heap.toHeapArray s) :
    ((service heap.toHeapArray).call s op).2.maps.nextMapping =
      s.maps.nextMapping + 2 * op.devices := by
  cases op with
  | getAhciDevices config m l => exact nextMapping_getAhciDevices (s := { s with mem := m }) l h
  | malloc size => rfl

theorem nextMapping_of_allLive (ops : List Op)
    (h : AllLive ((service heap.toHeapArray).state ops)) :
    ((service heap.toHeapArray).state ops).maps.nextMapping = 2 * (ops.map Op.devices).sum := by
  induction ops using List.reverseRecOn with
  | nil => rfl
  | append_singleton ops op ih =>
    rw [Service.state_concat] at h
    obtain ⟨hbefore, hroomy⟩ := (allLive_call_iff (fits_zero_run heap ops) op).mp h
    rw [Service.state_concat, nextMapping_call hroomy, ih hbefore, List.map_append, List.sum_append,
      List.map_singleton, List.sum_singleton, Nat.mul_add]

/-- **The table is for 128 devices**, over all calls together. -/
theorem devices_le_of_allLive (ops : List Op)
    (h : AllLive ((service heap.toHeapArray).state ops)) : (ops.map Op.devices).sum ≤ 128 := by
  have hnext := (fits_zero_run heap ops).1
  rw [nextMapping_of_allLive ops h, maxMappings] at hnext
  omega

/-- A list of 128 devices and then one of a single device: the table is full by then. -/
theorem not_allLive : ¬ ∀ (heap : MappedHeap) (ops : List Op),
    AllLive ((service heap.toHeapArray).state ops) := by
  intro hall
  have hle := devices_le_of_allLive _ (hall Mappings.heapAt4M
    [.getAhciDevices (fun _ => 0) (fun _ => 0) ⟨⟨0x300000, 128⟩, by decide⟩,
      .getAhciDevices (fun _ => 0) (fun _ => 0) ⟨⟨0x300000, 1⟩, by decide⟩])
  exact absurd hle (by decide)

end Runs

end Disks

end HuskyKernel
