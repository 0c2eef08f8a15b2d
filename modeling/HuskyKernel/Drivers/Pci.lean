import HuskyKernel.System.Words

/-!
# Drivers/Pci — enumerating the PCI functions

Configuration space answers the data port by what is in the address port (`Config`).  The outer loop
of `pci_enumerate_devices` counts buses in a `uint8_t` and compares it with 256, so it starts over
behind bus 255: it ends when the list is full and not before.  `enumerates_iff`: the enumeration is
exact for the spaces with at least 128 functions.
-/

namespace HuskyKernel

open Mem

/-- `struct pci_device`, less the padding byte behind `function`. -/
structure PciDevice where
  bus : Byte
  device : Byte
  function : Byte
  vendorId : BitVec 16
  deviceId : BitVec 16
  port : Word
deriving DecidableEq, Repr

/-- `sizeof(struct pci_device)`. -/
def pciDeviceSize : ℕ := 12

/-- `struct pci_device_list`. -/
structure PciDeviceList where
  pciDevice : Word
  length : ℕ
deriving DecidableEq, Repr

/-- The `struct pci_device` at `a`. -/
def Mem.pciDevice (m : Mem) (a : Word) : PciDevice where
  bus := m a
  device := m (a + 1)
  function := m (a + 2)
  vendorId := m.word16 (a + 4)
  deviceId := m.word16 (a + 6)
  port := m.word (a + 8)

/-- `&list.pci_device[i]`. -/
def PciDeviceList.entry (l : PciDeviceList) (i : ℕ) : Word :=
  l.pciDevice + BitVec.ofNat 32 (pciDeviceSize * i)

/-- The devices in a list. -/
def PciDeviceList.devices (l : PciDeviceList) (m : Mem) : List PciDevice :=
  (List.range l.length).map fun i => m.pciDevice (l.entry i)

namespace Pci

/-- What the data port answers for an address, again and again. -/
abbrev Config := Word → Word

/-- The address of the first register of a function. -/
def address (bus device function : Byte) : Word :=
  bus.toBitVec.setWidth 32 <<< 16 ||| device.toBitVec.setWidth 32 <<< 11 |||
    function.toBitVec.setWidth 32 <<< 8 ||| 0x80000000

/-- `pci_read_config_space`. -/
def readConfigSpace (config : Config) (bus device function offset : Byte) : Word :=
  config (bus.toBitVec.setWidth 32 <<< 16 ||| device.toBitVec.setWidth 32 <<< 11 |||
    function.toBitVec.setWidth 32 <<< 8 ||| (offset &&& 0xFC).toBitVec.setWidth 32 ||| 0x80000000)

/-- `MAX_PCI_DEVICES`. -/
def maxPciDevices : ℕ := 128

/-- A `printk`, with its arguments. -/
structure Message where
  format : List Byte
  args : List ℕ
deriving DecidableEq, Repr

/-- Memory, `device_count`, and what has been printed. -/
structure Scan where
  mem : Mem
  deviceCount : ℕ
  printed : List Message

/-- `printk`. -/
def Scan.printk (s : Scan) (format : String) (args : List ℕ) : Scan :=
  { s with printed := s.printed ++ [⟨str format, args⟩] }

/-- The stores into the next entry.  The second read of the data port is without a new address, and
so answers the identification again; an answer of 0 leaves `port` as it is. -/
def store (m : Mem) (a : Word) (bus device function : Byte) (vendorId deviceId : BitVec 16)
    (base : Word) : Mem :=
  let m := m.store a [bus, device, function]
  let m := (m.store (a + 4) (bytes16 vendorId)).store (a + 6) (bytes16 deviceId)
  if base ≠ 0 then m.store (a + 8) (bytes32 base) else m

/-- The body of the loops: one function.  `true` breaks the innermost loop. -/
def probe (config : Config) (list : Word) (bus device function : Byte) (s : Scan) : Scan × Bool :=
  let vendorDeviceId := config (address bus device function)
  let vendorId : BitVec 16 := vendorDeviceId.extractLsb' 0 16
  let deviceId : BitVec 16 := vendorDeviceId.extractLsb' 16 16
  if vendorDeviceId = 0xFFFFFFFF then (s, false)
  else if vendorId ≠ 0xFFFF ∧ deviceId ≠ 0xFFFF then
    if s.deviceCount < maxPciDevices then
      let base := config (address bus device function)
      let s := { s with
        mem := store s.mem (list + BitVec.ofNat 32 (pciDeviceSize * s.deviceCount)) bus device
          function vendorId deviceId base }
      let s := if base ≠ 0 then s
        else s.printk "Warning: Base address for device %d:%d:%d is invalid.\n"
          [bus.toNat, device.toNat, function.toNat]
      ({ s with deviceCount := s.deviceCount + 1 }, false)
    else
      (s.printk "Error: Exceeded maximum number of PCI devices (%d).\n" [maxPciDevices], true)
  else (s, false)

/-- The innermost loop, over the functions left. -/
def functionLoop (config : Config) (list : Word) (bus device : Byte) : List ℕ → Scan → Scan
  | [], s => s
  | f :: fs, s =>
      let (s, stop) := probe config list bus device (UInt8.ofNat f) s
      if stop then s else functionLoop config list bus device fs s

/-- The middle loop. -/
def deviceLoop (config : Config) (list : Word) (bus : Byte) (s : Scan) : Scan :=
  (List.range 32).foldl
    (fun s device => functionLoop config list bus (UInt8.ofNat device) (List.range 8) s) s

/-- The outer loop, for at most `n` buses.  Its own test, `bus < 256`, always holds of a `uint8_t`,
and `bus == 256` never does. -/
def busLoop (config : Config) (list : Word) : ℕ → Byte → Scan → Option Scan
  | 0, _, _ => none
  | n + 1, bus, s =>
      let s := deviceLoop config list bus s
      if s.deviceCount ≥ maxPciDevices then some s else busLoop config list n (bus + 1) s

/-- `pci_enumerate_devices`: the list, `heap_index`, memory and the messages, if it ends within
`fuel` buses. -/
def enumerateDevices (heap : HeapArray) (config : Config) (fuel : ℕ) (m : Mem) (heapIndex : Word) :
    Option (PciDeviceList × Word × Scan) :=
  let (list, heapIndex) := malloc heap (BitVec.ofNat 32 (maxPciDevices * pciDeviceSize)) heapIndex
  let s : Scan := ⟨m, 0, []⟩
  if list = 0 then
    some (⟨list, 0⟩, heapIndex,
      s.printk "Error: Failed to allocate memory for PCI devices list.\n" [])
  else do
    let s ← busLoop config list fuel 0 (s.printk "Starting PCI enumeration...\n" [])
    return (⟨list, s.deviceCount⟩, heapIndex,
      s.printk "PCI enumeration finished. %d devices found.\n" [s.deviceCount])

/-! ## What an enumeration should find -/

/-- A place a function can be at. -/
structure Place where
  bus : Byte
  device : Byte
  function : Byte
deriving DecidableEq, Repr

/-- A function: its place, and what it answers there. -/
structure Identity where
  place : Place
  vendorId : BitVec 16
  deviceId : BitVec 16
deriving DecidableEq, Repr

/-- What an entry says about the function it is for. -/
def identityOf (d : PciDevice) : Identity := ⟨⟨d.bus, d.device, d.function⟩, d.vendorId, d.deviceId⟩

/-- What is at a place. -/
def identity (config : Config) (f : Place) : Identity :=
  let id := config (address f.bus f.device f.function)
  ⟨f, id.extractLsb' 0 16, id.extractLsb' 16 16⟩

/-- There is a function at a place: neither id is `0xFFFF`. -/
def present (config : Config) (f : Place) : Bool :=
  decide ((identity config f).vendorId ≠ 0xFFFF ∧ (identity config f).deviceId ≠ 0xFFFF)

/-- The places of a device, and of a bus, in the order of the loops. -/
def places (bus : Byte) : List Place :=
  (List.range 32).flatMap fun device => (List.range 8).map fun function =>
    ⟨bus, UInt8.ofNat device, UInt8.ofNat function⟩

/-- The places on the first `n` buses the outer loop goes through. -/
def visited (n : ℕ) : List Place := (List.range n).flatMap fun bus => places (UInt8.ofNat bus)

/-- All functions, in bus-device-function order. -/
def functions (config : Config) : List Place := (visited 256).filter (present config)

/-- The list in memory `m` is the first 128 functions, in order. -/
def Exact (config : Config) (l : PciDeviceList) (m : Mem) : Prop :=
  (l.devices m).map identityOf = ((functions config).take maxPciDevices).map (identity config)

/-! ## One entry -/

section Entry

variable {m m' : Mem} {a base x : Word} {bus device function : Byte} {v d : BitVec 16}

/-- An entry names its function by its first eight bytes. -/
theorem identityOf_congr (h : ∀ x, Within a 8 x → m x = m' x) :
    identityOf (m.pciDevice a) = identityOf (m'.pciDevice a) := by
  have h0 := h a (Within.start (by decide))
  have h1 := h (a + 1) (Within.add (k := 1) (by decide))
  have h2 := h (a + 2) (Within.add (k := 2) (by decide))
  have h4 : m.word16 (a + 4) = m'.word16 (a + 4) :=
    word16_congr fun x hx => h x (Within.of_add (k := 4) hx (by decide))
  have h6 : m.word16 (a + 6) = m'.word16 (a + 6) :=
    word16_congr fun x hx => h x (Within.of_add (k := 6) hx (by decide))
  simp only [identityOf, Mem.pciDevice, h0, h1, h2, h4, h6]

theorem store_frame (hx : ¬ Within a 12 x) :
    store m a bus device function v d base x = m x := by
  have h0 : ¬ Within a [bus, device, function].length x := fun h => hx (h.mono (by simp))
  have h4 : ¬ Within (a + 4) 2 x := fun h => hx (Within.of_add (k := 4) h (by decide))
  have h6 : ¬ Within (a + 6) 2 x := fun h => hx (Within.of_add (k := 6) h (by decide))
  have h8 : ¬ Within (a + 8) 4 x := fun h => hx (Within.of_add (k := 8) h (by decide))
  have hids : ((m.store a [bus, device, function]).store (a + 4) (bytes16 v)).store (a + 6)
      (bytes16 d) x = m x := by
    rw [store_of_not_within (length_bytes16_le _) h6, store_of_not_within (length_bytes16_le _) h4,
      store_of_not_within (by simp [span]) h0]
  by_cases hbase : base ≠ 0
  · rw [store, if_pos hbase, store_of_not_within (length_bytes32_le _) h8, hids]
  · rw [store, if_neg hbase, hids]

/-- Before the port is stored. -/
theorem identityOf_ids : identityOf ((((m.store a [bus, device, function]).store (a + 4)
    (bytes16 v)).store (a + 6) (bytes16 d)).pciDevice a) = ⟨⟨bus, device, function⟩, v, d⟩ := by
  have hplace : ∀ k < 3, (((m.store a [bus, device, function]).store (a + 4)
      (bytes16 v)).store (a + 6) (bytes16 d)) (a + BitVec.ofNat 32 k) =
        [bus, device, function].getD k 0 := by
    intro k hk
    have h4 : ¬ Within (a + 4) 2 (a + BitVec.ofNat 32 k) := fun h => by
      have := ((Within.add_iff (k := 4) (by decide)).mp h).1
      bv_omega
    have h6 : ¬ Within (a + 6) 2 (a + BitVec.ofNat 32 k) := fun h => by
      have := ((Within.add_iff (k := 6) (by decide)).mp h).1
      bv_omega
    rw [store_of_not_within (length_bytes16_le _) h6, store_of_not_within (length_bytes16_le _) h4,
      store_add (by simp [span]) (by simpa using hk)]
  have h0 := hplace 0 (by decide)
  rw [show a + BitVec.ofNat 32 0 = a from BitVec.add_zero a] at h0
  have h1 := hplace 1 (by decide)
  have h2 := hplace 2 (by decide)
  have hv : (((m.store a [bus, device, function]).store (a + 4) (bytes16 v)).store (a + 6)
      (bytes16 d)).word16 (a + 4) = v := by
    refine (word16_congr fun x hx => store_of_not_within (length_bytes16_le _) fun h => ?_).trans
      (word16_store (m := m.store a [bus, device, function]) v)
    have hlt := ((Within.add_iff (k := 4) (by decide)).mp hx).2
    have hge := ((Within.add_iff (show 6 + 2 ≤ 2 ^ 32 by decide)).mp h).1
    omega
  have hd : (((m.store a [bus, device, function]).store (a + 4) (bytes16 v)).store (a + 6)
      (bytes16 d)).word16 (a + 6) = d := word16_store d
  rw [identityOf, Mem.pciDevice]
  simp only [hv, hd]
  rw [h0]
  exact congrArg (fun q => (⟨q, v, d⟩ : Identity))
    (congrArg₂ (fun x y => (⟨bus, x, y⟩ : Place)) h1 h2)

/-- **The entry just stored names its function**, whatever the port. -/
theorem identityOf_store : identityOf ((store m a bus device function v d base).pciDevice a) =
    ⟨⟨bus, device, function⟩, v, d⟩ := by
  by_cases hbase : base ≠ 0
  · rw [store, if_pos hbase, ← identityOf_ids (m := m) (a := a)]
    refine identityOf_congr fun x hx => store_of_not_within (length_bytes32_le _) fun h => ?_
    have hge := ((Within.add_iff (show 8 + 4 ≤ 2 ^ 32 by decide)).mp h).1
    rw [Within] at hx
    omega
  · rw [store, if_neg hbase, identityOf_ids]

end Entry

/-! ## The loops -/

section Loops

variable {config : Config} {list : Word} {vs ws : List Place} {s : Scan} {f : Place}

/-- The scan has been through the places `vs`: its list holds the first 128 functions of them. -/
structure Listed (config : Config) (list : Word) (vs : List Place) (s : Scan) : Prop where
  count : s.deviceCount = ((vs.filter (present config)).take maxPciDevices).length
  devices : ((⟨list, s.deviceCount⟩ : PciDeviceList).devices s.mem).map identityOf =
    ((vs.filter (present config)).take maxPciDevices).map (identity config)

/-- A place without a function… -/
theorem take_absent (hf : present config f = false) :
    ((vs ++ [f]).filter (present config)).take maxPciDevices =
      (vs.filter (present config)).take maxPciDevices := by
  have hfilter : (vs ++ [f]).filter (present config) = vs.filter (present config) := by
    simp [hf]
  rw [hfilter]

/-- …a full list, wherever the scan goes… -/
theorem take_full
    (hfull : ((vs.filter (present config)).take maxPciDevices).length = maxPciDevices)
    (ws : List Place) : ((vs ++ ws).filter (present config)).take maxPciDevices =
      (vs.filter (present config)).take maxPciDevices := by
  rw [List.length_take] at hfull
  rw [List.filter_append, List.take_append_of_le_length (by omega)]

/-- …and a function behind those found before, while there is room. -/
theorem take_found (hf : present config f = true)
    (hroom : ((vs.filter (present config)).take maxPciDevices).length < maxPciDevices) :
    ((vs ++ [f]).filter (present config)).take maxPciDevices =
      (vs.filter (present config)).take maxPciDevices ++ [f] := by
  rw [List.length_take] at hroom
  have hshort : (vs.filter (present config)).length < maxPciDevices := by omega
  rw [List.filter_append, show [f].filter (present config) = [f] by simp [hf],
    List.take_of_length_le hshort.le, List.take_of_length_le]
  rw [List.length_append]
  exact hshort

/-- A place without a function changes nothing. -/
theorem Listed.absent (h : Listed config list vs s) (hf : present config f = false) :
    Listed config list (vs ++ [f]) s := by
  exact ⟨by rw [take_absent hf]; exact h.count, by rw [take_absent hf]; exact h.devices⟩

/-- A full list stays as it is, wherever the scan goes. -/
theorem Listed.full (h : Listed config list vs s) (hs : s.deviceCount = maxPciDevices)
    (ws : List Place) : Listed config list (vs ++ ws) s := by
  have htake := take_full (h.count.symm.trans hs) ws
  exact ⟨by rw [htake]; exact h.count, by rw [htake]; exact h.devices⟩

/-- What is printed is not part of the list. -/
theorem Listed.printk (h : Listed config list vs s) (format : String) (args : List ℕ) :
    Listed config list vs (s.printk format args) := ⟨h.count, h.devices⟩

/-- Two entries lie apart. -/
theorem entry_frame {i j : ℕ} (hij : i ≠ j) (hi : i < maxPciDevices) (hj : j < maxPciDevices)
    (hx : Within (list + BitVec.ofNat 32 (pciDeviceSize * i)) 12 x) :
    ¬ Within (list + BitVec.ofNat 32 (pciDeviceSize * j)) 12 x := by
  intro h
  simp only [pciDeviceSize, maxPciDevices] at *
  obtain ⟨hge, hlt⟩ := (Within.add_iff (show 12 * i + 12 ≤ 2 ^ 32 by omega)).mp hx
  obtain ⟨hge', hlt'⟩ := (Within.add_iff (show 12 * j + 12 ≤ 2 ^ 32 by omega)).mp h
  omega

/-- A function goes behind those found before, while there is room. -/
theorem Listed.found (h : Listed config list vs s) (hf : present config f = true)
    (hroom : s.deviceCount < maxPciDevices) {t : Scan} (hcount : t.deviceCount = s.deviceCount + 1)
    {base : Word} (hmem : t.mem = store s.mem (list + BitVec.ofNat 32 (pciDeviceSize *
      s.deviceCount)) f.bus f.device f.function (identity config f).vendorId
        (identity config f).deviceId base) :
    Listed config list (vs ++ [f]) t := by
  have htake := take_found hf (h.count ▸ hroom)
  refine ⟨?_, ?_⟩
  · rw [htake, hcount, List.length_append, ← h.count, List.length_singleton]
  · rw [htake, List.map_append, ← h.devices, hcount, PciDeviceList.devices, PciDeviceList.devices,
      List.range_succ, List.map_append, List.map_append]
    refine congrArg₂ (· ++ ·) ?_ ?_
    · rw [List.map_map, List.map_map]
      refine List.map_congr_left fun i hi => identityOf_congr fun x hx => ?_
      have hlt := List.mem_range.mp hi
      rw [hmem]
      exact store_frame (entry_frame hlt.ne (hlt.trans hroom) hroom (hx.mono (by decide)))
    · rw [hmem]
      exact congrArg ([·]) identityOf_store

/-- The answer of an empty place names no function. -/
theorem present_of_ones (h : config (address f.bus f.device f.function) = 0xFFFFFFFF) :
    present config f = false := by
  simp only [present, identity, h]
  decide

/-- What the loop body can do: pass a place by, break on a full list, or add an entry. -/
theorem probe_cases (config : Config) (list : Word) (f : Place) (s : Scan) :
    (present config f = false ∧ probe config list f.bus f.device f.function s = (s, false)) ∨
    (present config f = true ∧ ¬ s.deviceCount < maxPciDevices ∧
      probe config list f.bus f.device f.function s = (s.printk
        "Error: Exceeded maximum number of PCI devices (%d).\n" [maxPciDevices], true)) ∨
    (present config f = true ∧ s.deviceCount < maxPciDevices ∧ ∃ t,
      probe config list f.bus f.device f.function s = (t, false) ∧
        t.deviceCount = s.deviceCount + 1 ∧ t.mem = store s.mem (list + BitVec.ofNat 32
          (pciDeviceSize * s.deviceCount)) f.bus f.device f.function (identity config f).vendorId
            (identity config f).deviceId (config (address f.bus f.device f.function))) := by
  by_cases hnone : config (address f.bus f.device f.function) = 0xFFFFFFFF
  · exact Or.inl ⟨present_of_ones hnone, by rw [probe, if_pos hnone]⟩
  by_cases hids : (config (address f.bus f.device f.function)).extractLsb' 0 16 ≠ 0xFFFF ∧
      (config (address f.bus f.device f.function)).extractLsb' 16 16 ≠ 0xFFFF
  · have hf : present config f = true := decide_eq_true hids
    by_cases hroom : s.deviceCount < maxPciDevices
    · refine Or.inr (Or.inr ⟨hf, hroom, (probe config list f.bus f.device f.function s).1, ?_⟩)
      rw [probe, if_neg hnone, if_pos hids, if_pos hroom]
      by_cases hbase : config (address f.bus f.device f.function) ≠ 0
      · simp only [if_pos hbase]
        exact ⟨trivial, trivial, rfl⟩
      · simp only [if_neg hbase]
        exact ⟨trivial, rfl, rfl⟩
    · exact Or.inr (Or.inl ⟨hf, hroom,
        by rw [probe, if_neg hnone, if_pos hids, if_neg hroom]⟩)
  · exact Or.inl ⟨decide_eq_false hids, by rw [probe, if_neg hnone, if_neg hids]⟩

/-- What holds of a scan that has been through the places `vs`, wherever it goes from there. -/
structure ScanInvariant (config : Config) (list : Word) (I : List Place → Scan → Prop) : Prop where
  count : ∀ {vs s}, I vs s →
    s.deviceCount = ((vs.filter (present config)).take maxPciDevices).length
  absent : ∀ {vs s f}, I vs s → present config f = false → I (vs ++ [f]) s
  full : ∀ {vs s}, I vs s → s.deviceCount = maxPciDevices → ∀ ws, I (vs ++ ws) s
  printk : ∀ {vs s}, I vs s → ∀ format args, I vs (s.printk format args)
  found : ∀ {vs s f t}, I vs s → present config f = true → s.deviceCount < maxPciDevices →
    t.deviceCount = s.deviceCount + 1 →
      t.mem = store s.mem (list + BitVec.ofNat 32 (pciDeviceSize * s.deviceCount)) f.bus f.device
        f.function (identity config f).vendorId (identity config f).deviceId
          (config (address f.bus f.device f.function)) → I (vs ++ [f]) t

theorem listed_invariant (config : Config) (list : Word) :
    ScanInvariant config list (Listed config list) where
  count h := h.count
  absent h hf := h.absent hf
  full h hs ws := h.full hs ws
  printk h format args := h.printk format args
  found h hf hroom hcount hmem := h.found hf hroom hcount hmem

namespace ScanInvariant

variable {I : List Place → Scan → Prop}

theorem count_le (hI : ScanInvariant config list I) (h : I vs s) :
    s.deviceCount ≤ maxPciDevices := by
  rw [hI.count h]
  exact List.length_take_le _ _

/-- **The functions of a device**, those behind a break included. -/
theorem functionLoop (hI : ScanInvariant config list I) {bus device : Byte} :
    ∀ {fs : List ℕ} {vs : List Place} {s : Scan}, I vs s →
      I (vs ++ fs.map fun f => ⟨bus, device, UInt8.ofNat f⟩)
        (Pci.functionLoop config list bus device fs s)
  | [], vs, s, h => by simpa [Pci.functionLoop] using h
  | f :: fs, vs, s, h => by
      rw [Pci.functionLoop, List.map_cons, List.append_cons]
      rcases probe_cases config list ⟨bus, device, UInt8.ofNat f⟩ s with ⟨hf, hp⟩ |
        ⟨-, hfull, hp⟩ | ⟨hf, hroom, t, hp, hcount, hmem⟩
      · simp only [hp, Bool.false_eq_true, if_false]
        exact hI.functionLoop (hI.absent h hf)
      · simp only [hp, if_true]
        rw [← List.append_cons]
        exact hI.printk (hI.full h (le_antisymm (hI.count_le h) (not_lt.mp hfull)) _) _ _
      · simp only [hp, Bool.false_eq_true, if_false]
        exact hI.functionLoop (hI.found h hf hroom hcount hmem)

/-- The devices of a bus. -/
theorem deviceLoop (hI : ScanInvariant config list I) (bus : Byte) (h : I vs s) :
    I (vs ++ places bus) (Pci.deviceLoop config list bus s) := by
  have hloop : ∀ (ds : List ℕ) {vs : List Place} {s : Scan}, I vs s →
      I (vs ++ ds.flatMap fun device => (List.range 8).map fun function =>
          ⟨bus, UInt8.ofNat device, UInt8.ofNat function⟩)
        (ds.foldl (fun s device => Pci.functionLoop config list bus (UInt8.ofNat device)
          (List.range 8) s) s) := by
    intro ds
    induction ds with
    | nil => intro vs s h; simpa using h
    | cons d ds ih =>
      intro vs s h
      rw [List.flatMap_cons, ← List.append_assoc, List.foldl_cons]
      exact ih (hI.functionLoop h)
  exact hloop (List.range 32) h

end ScanInvariant

theorem visited_succ (n : ℕ) : visited (n + 1) = visited n ++ places (UInt8.ofNat n) := by
  simp [visited, List.range_succ]

/-- **The buses**: the outer loop ends on a full list, and has not ended before. -/
theorem ScanInvariant.busLoop {I : List Place → Scan → Prop} (hI : ScanInvariant config list I) :
    ∀ (n : ℕ) {k : ℕ} {s : Scan}, I (visited k) s →
    (∃ j t, j ≤ k + n ∧ Pci.busLoop config list n (UInt8.ofNat k) s = some t ∧
      I (visited j) t ∧ t.deviceCount = maxPciDevices) ∨
    (Pci.busLoop config list n (UInt8.ofNat k) s = none ∧
      (0 < n → ((visited (k + n)).filter (present config)).length < maxPciDevices))
  | 0, k, s, _ => Or.inr ⟨rfl, fun h => absurd h (lt_irrefl 0)⟩
  | n + 1, k, s, h => by
      have hbus := hI.deviceLoop (UInt8.ofNat k) h
      rw [← visited_succ] at hbus
      rw [Pci.busLoop]
      by_cases hfull : (Pci.deviceLoop config list (UInt8.ofNat k) s).deviceCount ≥ maxPciDevices
      · refine Or.inl ⟨k + 1, _, by omega, ?_, hbus, le_antisymm (hI.count_le hbus) hfull⟩
        exact if_pos hfull
      · have hnext : UInt8.ofNat k + 1 = UInt8.ofNat (k + 1) := (UInt8.ofNat_add k 1).symm
        simp only [if_neg hfull, hnext]
        rcases hI.busLoop n hbus with ⟨j, t, hj, hrun, ht, hcount⟩ | ⟨hrun, hfew⟩
        · exact Or.inl ⟨j, t, by omega, hrun, ht, hcount⟩
        · refine Or.inr ⟨hrun, fun _ => ?_⟩
          rcases Nat.eq_zero_or_pos n with rfl | hn
          · have hlen := hI.count hbus
            rw [List.length_take] at hlen
            rw [Nat.zero_add]
            omega
          · rw [show k + (n + 1) = k + 1 + n by omega]
            exact hfew hn

end Loops

/-! ## Exactness -/

section Exactness

variable {config : Config} {list : Word} {m : Mem}

/-- The enumeration ends, and its list is exact. -/
def Enumerates (heap : HeapArray) (config : Config) (m : Mem) (heapIndex : Word) : Prop :=
  ∃ fuel r, enumerateDevices heap config fuel m heapIndex = some r ∧ Exact config r.1 r.2.2.mem

theorem listed_boot (config : Config) (list : Word) (m : Mem) (printed : List Message) :
    Listed config list (visited 0) ⟨m, 0, printed⟩ := ⟨rfl, rfl⟩

theorem visited_add (j k : ℕ) : ∃ ws, visited (j + k) = visited j ++ ws := by
  induction k with
  | zero => exact ⟨[], (List.append_nil _).symm⟩
  | succ k ih =>
    obtain ⟨ws, hws⟩ := ih
    exact ⟨ws ++ places (UInt8.ofNat (j + k)), by
      rw [← Nat.add_assoc, visited_succ, hws, List.append_assoc]⟩

/-- A full list of the first buses is the list of all. -/
theorem Listed.exact {j : ℕ} {s : Scan} (h : Listed config list (visited j) s) (hj : j ≤ 256)
    (hfull : s.deviceCount = maxPciDevices) : Exact config ⟨list, s.deviceCount⟩ s.mem := by
  obtain ⟨ws, hws⟩ := visited_add j (256 - j)
  rw [Nat.add_sub_cancel' hj] at hws
  have hall := (h.full hfull ws).devices
  rwa [← hws] at hall

variable {heap : HeapArray} {heapIndex next : Word} {fuel : ℕ}

theorem enumerateDevices_of_null
    (h : malloc heap (BitVec.ofNat 32 (maxPciDevices * pciDeviceSize)) heapIndex = (0, next)) :
    enumerateDevices heap config fuel m heapIndex = some (⟨0, 0⟩, next, (⟨m, 0, []⟩ : Scan).printk
      "Error: Failed to allocate memory for PCI devices list.\n" []) := by
  rw [enumerateDevices, h]
  exact if_pos rfl

theorem enumerateDevices_of_ne_null (hlist : list ≠ 0)
    (h : malloc heap (BitVec.ofNat 32 (maxPciDevices * pciDeviceSize)) heapIndex = (list, next)) :
    enumerateDevices heap config fuel m heapIndex =
      (busLoop config list fuel 0
        ((⟨m, 0, []⟩ : Scan).printk "Starting PCI enumeration...\n" [])).bind fun s =>
          some (⟨list, s.deviceCount⟩, next,
            s.printk "PCI enumeration finished. %d devices found.\n" [s.deviceCount]) := by
  rw [enumerateDevices, h]
  exact if_neg hlist

/-- An enumeration that ends has filled its list, so an exact one has functions to fill it. -/
theorem Enumerates.many (h : Enumerates heap config m heapIndex) (hlist : list ≠ 0)
    (hmalloc : malloc heap (BitVec.ofNat 32 (maxPciDevices * pciDeviceSize)) heapIndex =
      (list, next)) : maxPciDevices ≤ (functions config).length := by
  obtain ⟨fuel, r, hr, hexact⟩ := h
  rw [enumerateDevices_of_ne_null hlist hmalloc] at hr
  obtain ⟨s, hs, hr⟩ := Option.bind_eq_some_iff.mp hr
  obtain rfl := Option.some.inj hr
  rcases (listed_invariant config list).busLoop fuel (listed_boot config list m _) with
    ⟨j, t, -, hrun, -, hfull⟩ | ⟨hrun, -⟩
  · obtain rfl : t = s := Option.some.inj (hrun.symm.trans hs)
    have hlen := congrArg List.length hexact
    simp only [PciDeviceList.devices, List.length_map, List.length_range, hfull,
      List.length_take] at hlen
    omega
  · cases hrun.symm.trans hs

/-- **The enumeration is exact on the spaces that fill its list**, and, with no memory for a list,
on those with nothing to list. -/
theorem enumerates_iff (heap : HeapArray) (config : Config) (m : Mem) (heapIndex : Word) :
    Enumerates heap config m heapIndex ↔
      if (malloc heap (BitVec.ofNat 32 (maxPciDevices * pciDeviceSize)) heapIndex).1 = 0 then
        functions config = []
      else maxPciDevices ≤ (functions config).length := by
  rcases hmalloc : malloc heap (BitVec.ofNat 32 (maxPciDevices * pciDeviceSize)) heapIndex with
    ⟨list, next⟩
  by_cases hlist : list = 0
  · subst hlist
    rw [if_pos rfl]
    constructor
    · rintro ⟨fuel, r, hr, hexact⟩
      obtain rfl := Option.some.inj ((enumerateDevices_of_null hmalloc).symm.trans hr)
      simpa [Exact, PciDeviceList.devices, maxPciDevices] using hexact.symm
    · intro hnone
      refine ⟨0, _, enumerateDevices_of_null hmalloc, ?_⟩
      rw [Exact, hnone]
      rfl
  · rw [if_neg hlist]
    refine ⟨fun h => h.many hlist hmalloc, fun hmany => ?_⟩
    rcases (listed_invariant config list).busLoop 256
        (listed_boot config list m [⟨str "Starting PCI enumeration...\n", []⟩]) with
      ⟨j, t, hj, hrun, ht, hfull⟩ | ⟨-, hfew⟩
    · exact ⟨256, _, (enumerateDevices_of_ne_null hlist hmalloc).trans
        (Option.bind_eq_some_iff.mpr ⟨t, hrun, rfl⟩), ht.exact (by omega) hfull⟩
    · exact absurd (hfew (by decide)) (not_lt.mpr hmany)

/-- A space without functions. -/
theorem functions_empty : functions (fun _ => 0xFFFFFFFF) = [] := by
  rw [functions, List.filter_eq_nil_iff]
  exact fun f _ => Bool.eq_false_iff.mp (present_of_ones rfl)

/-- An empty space: at boot, with memory for a list, the enumeration goes round for ever. -/
theorem not_enumerates :
    ¬ ∀ (heap : HeapArray) (config : Config) (m : Mem) (heapIndex : Word),
      (malloc heap (BitVec.ofNat 32 (maxPciDevices * pciDeviceSize)) heapIndex).1 ≠ 0 →
        Enumerates heap config m heapIndex := by
  intro hall
  have hmalloc : malloc Heap.heapAt4M (BitVec.ofNat 32 (maxPciDevices * pciDeviceSize)) 0 =
      (Heap.heapAt4M.base, BitVec.ofNat 32 (maxPciDevices * pciDeviceSize)) := by decide
  have hlist : Heap.heapAt4M.base ≠ 0 := by decide
  have hmany := (hall Heap.heapAt4M (fun _ => 0xFFFFFFFF) (fun _ => 0) 0
    (by rw [hmalloc]; exact hlist)).many hlist hmalloc
  rw [functions_empty] at hmany
  exact absurd hmany (by decide)

end Exactness

end Pci

end HuskyKernel
