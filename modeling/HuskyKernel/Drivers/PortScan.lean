import HuskyKernel.Drivers.ConfigPorts

/-!
# Drivers/PortScan — what the enumeration records

`pci_enumerate_devices`, with its accesses to the ports: it latches the address of each function and
reads the data port, once for the identification and, for the functions it lists, once more "for
BAR0".  The address is still the one latched, so that the second answer is the identification again;
an answer of 0 is not stored, and `port` then stays what the memory behind `malloc` held.

`pciEnumerateDevices_matches_iff`: the recorded fields are those of configuration space exactly if
that is BAR0, for each of the functions recorded.
-/

namespace HuskyKernel

open Mem Pci

/-- A scan, and the ports it goes through. -/
structure PortScan where
  ports : ConfigPorts
  scan : Scan

namespace PortScan

/-- `pci_write_config_address`. -/
def pciWriteConfigAddress (address : Word) (s : PortScan) : PortScan :=
  { s with ports := s.ports.outlAddress address }

/-- `pci_read_config_data`. -/
def pciReadConfigData (s : PortScan) : Word := s.ports.inlData

/-- The body of the loops: one function.  `true` breaks the innermost loop. -/
def probe (list : Word) (bus device function : Byte) (s : PortScan) : PortScan × Bool :=
  let s := s.pciWriteConfigAddress (address bus device function)
  let vendorDeviceId := s.pciReadConfigData
  let vendorId : BitVec 16 := vendorDeviceId.extractLsb' 0 16
  let deviceId : BitVec 16 := vendorDeviceId.extractLsb' 16 16
  if vendorDeviceId = 0xFFFFFFFF then (s, false)
  else if vendorId ≠ 0xFFFF ∧ deviceId ≠ 0xFFFF then
    if s.scan.deviceCount < maxPciDevices then
      let base := s.pciReadConfigData
      let t := { s.scan with
        mem := store s.scan.mem (list + BitVec.ofNat 32 (pciDeviceSize * s.scan.deviceCount)) bus
          device function vendorId deviceId base }
      let t := if base ≠ 0 then t
        else t.printk "Warning: Base address for device %d:%d:%d is invalid.\n"
          [bus.toNat, device.toNat, function.toNat]
      (⟨s.ports, { t with deviceCount := t.deviceCount + 1 }⟩, false)
    else
      (⟨s.ports, s.scan.printk "Error: Exceeded maximum number of PCI devices (%d).\n"
          [maxPciDevices]⟩, true)
  else (s, false)

/-- The innermost loop, over the functions left. -/
def functionLoop (list : Word) (bus device : Byte) : List ℕ → PortScan → PortScan
  | [], s => s
  | f :: fs, s =>
      let (s, stop) := probe list bus device (UInt8.ofNat f) s
      if stop then s else functionLoop list bus device fs s

/-- The middle loop. -/
def deviceLoop (list : Word) (bus : Byte) (s : PortScan) : PortScan :=
  (List.range 32).foldl
    (fun s device => functionLoop list bus (UInt8.ofNat device) (List.range 8) s) s

/-- The outer loop, for at most `n` buses. -/
def busLoop (list : Word) : ℕ → Byte → PortScan → Option PortScan
  | 0, _, _ => none
  | n + 1, bus, s =>
      let s := deviceLoop list bus s
      if s.scan.deviceCount ≥ maxPciDevices then some s else busLoop list n (bus + 1) s

/-- `pci_enumerate_devices`: the list, `heap_index`, the ports, memory and the messages, if it ends
within `fuel` buses. -/
def pciEnumerateDevices (heap : HeapArray) (ports : ConfigPorts) (fuel : ℕ) (m : Mem)
    (heapIndex : Word) : Option (PciDeviceList × Word × PortScan) :=
  let (list, heapIndex) := malloc heap (BitVec.ofNat 32 (maxPciDevices * pciDeviceSize)) heapIndex
  let s : Scan := ⟨m, 0, []⟩
  if list = 0 then
    some (⟨list, 0⟩, heapIndex,
      ⟨ports, s.printk "Error: Failed to allocate memory for PCI devices list.\n" []⟩)
  else do
    let s ← busLoop list fuel 0 ⟨ports, s.printk "Starting PCI enumeration...\n" []⟩
    return (⟨list, s.scan.deviceCount⟩, heapIndex, ⟨s.ports,
      s.scan.printk "PCI enumeration finished. %d devices found.\n" [s.scan.deviceCount]⟩)

/-! ## The latch -/

section Latch

variable {s : PortScan}

/-- `t` is `s` after the scan `u`, through the same configuration space. -/
structure Through (s : PortScan) (u : Scan) (t : PortScan) : Prop where
  scan : t.scan = u
  config : t.ports.config = s.ports.config

/-- **Both reads of a function go to the address latched for it.** -/
theorem probe_through (list : Word) (bus device function : Byte) (s : PortScan) :
    Through s (Pci.probe s.ports.config list bus device function s.scan).1
        (probe list bus device function s).1 ∧
      (probe list bus device function s).2 =
        (Pci.probe s.ports.config list bus device function s.scan).2 := by
  have hread : (s.pciWriteConfigAddress (address bus device function)).pciReadConfigData =
      s.ports.config (address bus device function) := rfl
  have hscan : (s.pciWriteConfigAddress (address bus device function)).scan = s.scan := rfl
  simp only [probe, Pci.probe, hread, hscan]
  split_ifs <;> exact ⟨⟨rfl, rfl⟩, rfl⟩

theorem Through.trans {u : Scan} {t v : PortScan} {w : Scan} (h : Through s u t)
    (h' : Through t w v) : Through s w v := ⟨h'.scan, h'.config.trans h.config⟩

theorem functionLoop_through (list : Word) (bus device : Byte) : ∀ (fs : List ℕ) (s : PortScan),
    Through s (Pci.functionLoop s.ports.config list bus device fs s.scan)
      (functionLoop list bus device fs s)
  | [], _ => ⟨rfl, rfl⟩
  | f :: fs, s => by
      obtain ⟨hprobe, hstop⟩ := probe_through list bus device (UInt8.ofNat f) s
      rw [functionLoop, Pci.functionLoop]
      dsimp only
      rw [hstop]
      by_cases hbreak : (Pci.probe s.ports.config list bus device (UInt8.ofNat f) s.scan).2 = true
      · rw [if_pos hbreak, if_pos hbreak]
        exact hprobe
      · have hrest := functionLoop_through list bus device fs
          (probe list bus device (UInt8.ofNat f) s).1
        rw [hprobe.config, hprobe.scan] at hrest
        rw [if_neg hbreak, if_neg hbreak]
        exact hprobe.trans hrest

theorem deviceLoop_through (list : Word) (bus : Byte) (s : PortScan) :
    Through s (Pci.deviceLoop s.ports.config list bus s.scan) (deviceLoop list bus s) := by
  rw [deviceLoop, Pci.deviceLoop]
  generalize List.range 32 = ds
  induction ds generalizing s with
  | nil => exact ⟨rfl, rfl⟩
  | cons d ds ih =>
    have hfirst := functionLoop_through list bus (UInt8.ofNat d) (List.range 8) s
    have hrest := ih (functionLoop list bus (UInt8.ofNat d) (List.range 8) s)
    rw [hfirst.config, hfirst.scan] at hrest
    exact hfirst.trans hrest

theorem busLoop_through (list : Word) : ∀ (n : ℕ) (bus : Byte) (s : PortScan),
    (busLoop list n bus s).map (·.scan) = Pci.busLoop s.ports.config list n bus s.scan
  | 0, _, _ => rfl
  | n + 1, bus, s => by
      have hbus := deviceLoop_through list bus s
      have hrest := busLoop_through list n (bus + 1) (deviceLoop list bus s)
      rw [hbus.config, hbus.scan] at hrest
      rw [busLoop, Pci.busLoop, hbus.scan]
      by_cases hfull : (Pci.deviceLoop s.ports.config list bus s.scan).deviceCount ≥ maxPciDevices
      · rw [if_pos hfull, if_pos hfull, Option.map_some, hbus.scan]
      · rw [if_neg hfull, if_neg hfull, hrest]

/-- **The enumeration, without its ports**, is the one that reads configuration space. -/
theorem pciEnumerateDevices_eq (heap : HeapArray) (ports : ConfigPorts) (fuel : ℕ) (m : Mem)
    (heapIndex : Word) :
    (pciEnumerateDevices heap ports fuel m heapIndex).map (fun r => (r.1, r.2.1, r.2.2.scan)) =
      enumerateDevices heap ports.config fuel m heapIndex := by
  rcases hmalloc : malloc heap (BitVec.ofNat 32 (maxPciDevices * pciDeviceSize)) heapIndex with
    ⟨list, next⟩
  by_cases hlist : list = 0
  · subst hlist
    rw [enumerateDevices_of_null hmalloc, pciEnumerateDevices, hmalloc]
    rfl
  · rw [enumerateDevices_of_ne_null hlist hmalloc, pciEnumerateDevices, hmalloc]
    dsimp only
    rw [if_neg hlist]
    have hloop := busLoop_through list fuel 0
      ⟨ports, (⟨m, 0, []⟩ : Scan).printk "Starting PCI enumeration...\n" []⟩
    dsimp only at hloop
    rw [← hloop]
    cases busLoop list fuel 0 _ <;> rfl

end Latch

/-! ## What an entry holds -/

section Entry

variable {config : Config} {list a : Word} {m m' m₀ : Mem} {f : Place}

/-- `&list[i]`. -/
def entryAt (list : Word) (i : ℕ) : Word := list + BitVec.ofNat 32 (pciDeviceSize * i)

theorem entry_eq_entryAt (list : Word) (n i : ℕ) :
    (⟨list, n⟩ : PciDeviceList).entry i = entryAt list i := rfl

/-- The identification of a function. -/
def identification (config : Config) (f : Place) : Word :=
  config (address f.bus f.device f.function)

/-- `port` in the entry at `a`, once the function at `f` is recorded there; before that memory was
`m₀`. -/
def portOf (config : Config) (m₀ : Mem) (a : Word) (f : Place) : Word :=
  if identification config f ≠ 0 then identification config f else m₀.word (a + 8)

/-- The entry at `a`, once the function at `f` is recorded there. -/
def entryOf (config : Config) (m₀ : Mem) (a : Word) (f : Place) : PciDevice where
  bus := f.bus
  device := f.device
  function := f.function
  vendorId := (identity config f).vendorId
  deviceId := (identity config f).deviceId
  port := portOf config m₀ a f

theorem pciDevice_ext {d d' : PciDevice} (h : identityOf d = identityOf d')
    (hp : d.port = d'.port) : d = d' := by
  cases d
  cases d'
  simp only [identityOf, Identity.mk.injEq, Place.mk.injEq] at h
  simp only [PciDevice.mk.injEq]
  exact ⟨h.1.1, h.1.2.1, h.1.2.2, h.2.1, h.2.2, hp⟩

theorem pciDevice_congr (h : ∀ x, Within a 12 x → m x = m' x) : m.pciDevice a = m'.pciDevice a :=
  pciDevice_ext (identityOf_congr fun x hx => h x (hx.mono (by decide)))
    (word_congr fun x hx => h x (Within.of_add (k := 8) hx (by decide)))

/-- The port of an entry just stored. -/
theorem port_store (m : Mem) (a : Word) (bus device function : Byte) (v d : BitVec 16)
    (base : Word) : (store m a bus device function v d base).word (a + 8) =
      if base ≠ 0 then base else m.word (a + 8) := by
  rw [Pci.store]
  by_cases hbase : base ≠ 0
  · rw [if_pos hbase, if_pos hbase, word_store]
  · rw [if_neg hbase, if_neg hbase]
    refine word_congr fun x hx => ?_
    have hge := (Within.add_iff (show 8 + 4 ≤ 2 ^ 32 by decide)).mp hx
    have h0 : ¬ Within a [bus, device, function].length x := fun h => by
      have hlt : (x - a).toNat < 3 := h
      omega
    have h4 : ¬ Within (a + 4) 2 x := fun h => by
      have := (Within.add_iff (show 4 + 2 ≤ 2 ^ 32 by decide)).mp h
      omega
    have h6 : ¬ Within (a + 6) 2 x := fun h => by
      have := (Within.add_iff (show 6 + 2 ≤ 2 ^ 32 by decide)).mp h
      omega
    rw [store_of_not_within (length_bytes16_le _) h6, store_of_not_within (length_bytes16_le _) h4,
      store_of_not_within (by simp [span]) h0]

/-- **An entry just stored.** -/
theorem pciDevice_store (h : m.word (a + 8) = m₀.word (a + 8)) :
    (store m a f.bus f.device f.function (identity config f).vendorId
      (identity config f).deviceId (identification config f)).pciDevice a =
        entryOf config m₀ a f := by
  refine pciDevice_ext (identityOf_store.trans rfl) ((port_store ..).trans ?_)
  rw [h]
  rfl

end Entry

/-! ## What a list holds -/

section Filled

variable {config : Config} {list : Word} {m₀ : Mem} {vs : List Place} {s t : Scan} {f : Place}

/-- The scan has been through the places `vs`: its entries are those of the first 128 functions of
them, and behind them memory is as it was. -/
structure Filled (config : Config) (list : Word) (m₀ : Mem) (vs : List Place) (s : Scan) :
    Prop where
  count : s.deviceCount = ((vs.filter (present config)).take maxPciDevices).length
  entries : ∀ i f, ((vs.filter (present config)).take maxPciDevices)[i]? = some f →
    s.mem.pciDevice (entryAt list i) = entryOf config m₀ (entryAt list i) f
  fresh : ∀ i, s.deviceCount ≤ i → i < maxPciDevices →
    s.mem.word (entryAt list i + 8) = m₀.word (entryAt list i + 8)

theorem Filled.congr {ws : List Place} (h : Filled config list m₀ vs s)
    (htake : (ws.filter (present config)).take maxPciDevices =
      (vs.filter (present config)).take maxPciDevices) : Filled config list m₀ ws s :=
  ⟨htake ▸ h.count, htake ▸ h.entries, h.fresh⟩

/-- One function more. -/
theorem Filled.found (h : Filled config list m₀ vs s) (hf : present config f = true)
    (hroom : s.deviceCount < maxPciDevices) (hcount : t.deviceCount = s.deviceCount + 1)
    (hmem : t.mem = store s.mem (entryAt list s.deviceCount) f.bus f.device f.function
      (identity config f).vendorId (identity config f).deviceId (identification config f)) :
    Filled config list m₀ (vs ++ [f]) t := by
  have htake := take_found hf (h.count ▸ hroom)
  have hlen := h.count
  have hframe : ∀ i, i ≠ s.deviceCount → i < maxPciDevices → ∀ x, Within (entryAt list i) 12 x →
      t.mem x = s.mem x := fun i hi hlt x hx => by
    rw [hmem]
    exact store_frame (entry_frame hi hlt hroom hx)
  refine ⟨?_, fun i g hg => ?_, fun i hi hlt => ?_⟩
  · rw [htake, hcount, List.length_append, ← hlen, List.length_singleton]
  · rw [htake] at hg
    rcases Nat.lt_or_ge i s.deviceCount with hi | hi
    · rw [List.getElem?_append_left (hlen ▸ hi)] at hg
      rw [← h.entries i g hg]
      exact pciDevice_congr (hframe i hi.ne (hi.trans hroom))
    · obtain ⟨hi', -⟩ := List.getElem?_eq_some_iff.mp hg
      rw [List.length_append, ← hlen, List.length_singleton] at hi'
      obtain rfl : i = s.deviceCount := by omega
      rw [List.getElem?_append_right hlen.ge, ← hlen, Nat.sub_self] at hg
      rw [← Option.some.inj hg, hmem]
      exact pciDevice_store (h.fresh _ (Nat.le_refl _) hroom)
  · rw [← h.fresh i (by omega) hlt]
    exact word_congr fun x hx =>
      hframe i (by omega) hlt x (Within.of_add (k := 8) hx (by decide))

/-- **Every scan fills its list so.** -/
theorem filled_invariant (config : Config) (list : Word) (m₀ : Mem) :
    ScanInvariant config list (Filled config list m₀) where
  count h := h.count
  absent h hf := h.congr (take_absent hf)
  full h hs ws := h.congr (take_full (h.count.symm.trans hs) ws)
  printk h _ _ := ⟨h.count, h.entries, h.fresh⟩
  found h hf hroom hcount hmem := h.found hf hroom hcount hmem

theorem filled_boot (config : Config) (list : Word) (m₀ : Mem) (printed : List Message) :
    Filled config list m₀ (visited 0) ⟨m₀, 0, printed⟩ :=
  ⟨rfl, fun i f h => absurd (show [][i]? = some f from h) (by simp), fun _ _ _ => rfl⟩

end Filled

/-! ## Going round the buses -/

section Rounds

variable {config : Config} {f : Place} {j : ℕ}

/-- The functions recorded: the first 128 met, as often as the buses are gone round. -/
def recorded (config : Config) : List Place :=
  ((visited (256 * maxPciDevices)).filter (present config)).take maxPciDevices

theorem places_mod (n : ℕ) : places (UInt8.ofNat (n % 256)) = places (UInt8.ofNat n) := by
  have hbus : UInt8.ofNat (n % 256) = UInt8.ofNat n := by
    refine UInt8.toNat_inj.mp ?_
    rw [UInt8.toNat_ofNat', UInt8.toNat_ofNat']
    exact Nat.mod_mod n 256
  rw [hbus]

/-- Behind bus 255 the scan starts over. -/
theorem visited_rounds (k n : ℕ) : visited (256 * k + n) = visited (256 * k) ++ visited n := by
  induction n with
  | zero => exact (List.append_nil _).symm
  | succ n ih =>
    have hbus : places (UInt8.ofNat (256 * k + n)) = places (UInt8.ofNat n) := by
      rw [← places_mod, Nat.mul_add_mod, places_mod]
    rw [← Nat.add_assoc, visited_succ, visited_succ, ih, hbus, List.append_assoc]

theorem length_rounds (config : Config) (k : ℕ) :
    ((visited (256 * k)).filter (present config)).length = k * (functions config).length := by
  induction k with
  | zero =>
    rw [Nat.zero_mul]
    rfl
  | succ k ih =>
    rw [Nat.mul_succ, visited_rounds, List.filter_append, List.length_append, ih, Nat.succ_mul]
    rfl

theorem mem_visited (h : f ∈ visited j) : f ∈ visited 256 := by
  obtain ⟨bus, -, hf⟩ := List.mem_flatMap.mp h
  rw [← places_mod] at hf
  exact List.mem_flatMap.mpr ⟨bus % 256, List.mem_range.mpr (Nat.mod_lt _ (by decide)), hf⟩

/-- With a function anywhere, going round fills the list. -/
theorem many_of_mem (h : f ∈ (visited j).filter (present config)) :
    maxPciDevices ≤ ((visited (256 * maxPciDevices)).filter (present config)).length := by
  obtain ⟨hf, hpresent⟩ := List.mem_filter.mp h
  have hpos : 0 < (functions config).length :=
    List.length_pos_of_mem (List.mem_filter.mpr ⟨mem_visited hf, hpresent⟩)
  rw [length_rounds]
  exact Nat.le_mul_of_pos_right _ hpos

/-- A full list is the same, wherever the scan ends. -/
theorem recorded_eq (h : maxPciDevices ≤ ((visited j).filter (present config)).length) :
    ((visited j).filter (present config)).take maxPciDevices = recorded config := by
  have htake : ∀ {k l : ℕ}, k ≤ l → maxPciDevices ≤ ((visited k).filter (present config)).length →
      ((visited l).filter (present config)).take maxPciDevices =
        ((visited k).filter (present config)).take maxPciDevices := by
    intro k l hkl hk
    obtain ⟨ws, hws⟩ := visited_add k (l - k)
    rw [Nat.add_sub_cancel' hkl] at hws
    rw [hws]
    exact take_full (by rw [List.length_take]; omega) ws
  rcases Nat.le_total j (256 * maxPciDevices) with hle | hle
  · exact (htake hle h).symm
  · obtain ⟨f, hf⟩ := List.exists_mem_of_length_pos (Nat.lt_of_lt_of_le (by decide) h)
    exact htake hle (many_of_mem hf)

end Rounds

/-! ## The recorded fields -/

section Matches

variable {config : Config} {list a : Word} {m : Mem} {f : Place} {heap : HeapArray}
  {ports : ConfigPorts} {heapIndex : Word}

/-- BAR0 of a function. -/
def bar0 (config : Config) (f : Place) : Word :=
  readConfigSpace config f.bus f.device f.function 0x10

/-- Every entry says of its function what configuration space says of it. -/
def Matches (config : Config) (l : PciDeviceList) (m : Mem) : Prop :=
  ∀ d ∈ l.devices m,
    d.vendorId = (readConfigSpace config d.bus d.device d.function 0x00).extractLsb' 0 16 ∧
      d.deviceId = (readConfigSpace config d.bus d.device d.function 0x00).extractLsb' 16 16 ∧
        d.port = readConfigSpace config d.bus d.device d.function 0x10

theorem readConfigSpace_zero (bus device function : Byte) :
    readConfigSpace config bus device function 0x00 = config (address bus device function) := by
  have hzero : ((0x00 : Byte) &&& 0xFC).toBitVec.setWidth 32 = (0 : Word) := by decide
  rw [readConfigSpace, hzero, address]
  exact congrArg (fun x => config (x ||| 0x80000000)) BitVec.or_zero

/-- The ids of an entry are right, so that it is down to its port. -/
theorem entryOf_matches_iff (config : Config) (m : Mem) (a : Word) (f : Place) :
    ((entryOf config m a f).vendorId =
        (readConfigSpace config f.bus f.device f.function 0x00).extractLsb' 0 16 ∧
      (entryOf config m a f).deviceId =
        (readConfigSpace config f.bus f.device f.function 0x00).extractLsb' 16 16 ∧
      (entryOf config m a f).port = readConfigSpace config f.bus f.device f.function 0x10) ↔
    portOf config m a f = bar0 config f := by
  rw [readConfigSpace_zero]
  exact ⟨fun h => h.2.2, fun h => ⟨rfl, rfl, h⟩⟩

/-- **A full list matches configuration space** exactly if its ports are BAR0. -/
theorem Filled.matches_iff {j : ℕ} {s : Scan} (h : Filled config list m (visited j) s)
    (hfull : s.deviceCount = maxPciDevices) :
    Matches config ⟨list, s.deviceCount⟩ s.mem ↔ ∀ i f, (recorded config)[i]? = some f →
      portOf config m (entryAt list i) f = bar0 config f := by
  have hlen := h.count
  rw [hfull, List.length_take] at hlen
  have hentries := h.entries
  rw [recorded_eq (by omega)] at hentries
  have hrecorded : (recorded config).length = maxPciDevices := by
    rw [← recorded_eq (j := j) (by omega), ← h.count, hfull]
  rw [Matches, PciDeviceList.devices, List.forall_mem_map]
  constructor
  · intro hall i f hf
    obtain ⟨hi, -⟩ := List.getElem?_eq_some_iff.mp hf
    rw [hrecorded, ← hfull] at hi
    have hentry := hall i (List.mem_range.mpr hi)
    rw [entry_eq_entryAt, hentries i f hf] at hentry
    exact (entryOf_matches_iff config m (entryAt list i) f).mp hentry
  · intro hall i hi
    obtain ⟨f, hf⟩ : ∃ f, (recorded config)[i]? = some f := by
      rw [List.mem_range] at hi
      refine ⟨_, List.getElem?_eq_getElem ?_⟩
      rw [hrecorded, ← hfull]
      exact hi
    rw [entry_eq_entryAt, hentries i f hf]
    exact (entryOf_matches_iff config m (entryAt list i) f).mpr (hall i f hf)

/-- Whatever holds of the lists returned, holds of those returned without the ports. -/
theorem forall_returned_iff {Q : PciDeviceList → Mem → Prop} :
    (∀ fuel r, pciEnumerateDevices heap ports fuel m heapIndex = some r →
        Q r.1 r.2.2.scan.mem) ↔
      ∀ fuel r, enumerateDevices heap ports.config fuel m heapIndex = some r → Q r.1 r.2.2.mem := by
  refine forall_congr' fun fuel => ?_
  rw [← pciEnumerateDevices_eq]
  constructor
  · intro h r hr
    obtain ⟨r', hr', rfl⟩ := Option.map_eq_some_iff.mp hr
    exact h r' hr'
  · intro h r hr
    exact h _ (Option.map_eq_some_iff.mpr ⟨r, hr, rfl⟩)

/-- The memory `malloc` returns for the list. -/
def listOf (heap : HeapArray) (heapIndex : Word) : Word :=
  (malloc heap (BitVec.ofNat 32 (maxPciDevices * pciDeviceSize)) heapIndex).1

theorem malloc_listOf (heap : HeapArray) (heapIndex : Word) :
    malloc heap (BitVec.ofNat 32 (maxPciDevices * pciDeviceSize)) heapIndex =
      (listOf heap heapIndex,
        (malloc heap (BitVec.ofNat 32 (maxPciDevices * pciDeviceSize)) heapIndex).2) := by
  rw [listOf]

/-- An enumeration that returns ends on a list that is full… -/
theorem filled_of_returned {fuel : ℕ} {r : PciDeviceList × Word × Scan}
    (hlist : listOf heap heapIndex ≠ 0)
    (hr : enumerateDevices heap config fuel m heapIndex = some r) :
    ∃ j s, Filled config (listOf heap heapIndex) m (visited j) s ∧
      s.deviceCount = maxPciDevices ∧ r.1 = ⟨listOf heap heapIndex, s.deviceCount⟩ ∧
        r.2.2.mem = s.mem := by
  rw [enumerateDevices_of_ne_null hlist (malloc_listOf heap heapIndex)] at hr
  obtain ⟨s, hs, hr⟩ := Option.bind_eq_some_iff.mp hr
  obtain rfl := Option.some.inj hr
  rcases (filled_invariant config _ m).busLoop fuel (filled_boot config _ m _) with
    ⟨j, t, -, hrun, ht, hfull⟩ | ⟨hrun, -⟩
  · obtain rfl : t = s := Option.some.inj (hrun.symm.trans hs)
    exact ⟨j, t, ht, hfull, rfl, rfl⟩
  · cases hrun.symm.trans hs

/-- …and with a function to record, it returns. -/
theorem exists_returned (hlist : listOf heap heapIndex ≠ 0) (hf : f ∈ recorded config) :
    ∃ r, enumerateDevices heap config (256 * maxPciDevices) m heapIndex = some r := by
  rw [enumerateDevices_of_ne_null hlist (malloc_listOf heap heapIndex)]
  rcases (filled_invariant config (listOf heap heapIndex) m).busLoop (256 * maxPciDevices)
    (filled_boot config _ m [⟨str "Starting PCI enumeration...\n", []⟩]) with
    ⟨j, t, -, hrun, -⟩ | ⟨-, hfew⟩
  · exact ⟨_, Option.bind_eq_some_iff.mpr ⟨t, hrun, rfl⟩⟩
  · have hmany := many_of_mem (List.mem_of_mem_take hf)
    have hfew' := hfew (by decide)
    rw [Nat.zero_add] at hfew'
    exact absurd hfew' (not_lt.mpr hmany)

/-- Of the functions recorded, what is recorded as a port is BAR0. -/
def PortsMatch (heap : HeapArray) (config : Config) (m : Mem) (heapIndex : Word) : Prop :=
  ∀ i f, (recorded config)[i]? = some f →
    portOf config m (entryAt (listOf heap heapIndex) i) f = bar0 config f

theorem portsMatch_of_matches (hlist : listOf heap heapIndex ≠ 0)
    (h : ∀ fuel r, pciEnumerateDevices heap ports fuel m heapIndex = some r →
      Matches ports.config r.1 r.2.2.scan.mem) : PortsMatch heap ports.config m heapIndex := by
  intro i f hf
  have hmem : f ∈ recorded ports.config := List.mem_of_getElem? hf
  obtain ⟨r, hr⟩ := exists_returned (m := m) hlist hmem
  have hmatches := forall_returned_iff.mp h _ r hr
  obtain ⟨j, s, hs, hfull, hr1, hr2⟩ := filled_of_returned hlist hr
  rw [hr1, hr2, hs.matches_iff hfull] at hmatches
  exact hmatches i f hf

/-- **What is recorded matches configuration space** exactly if there is no memory for a list or,
for each of the functions recorded, the identification, or what memory held where that is 0, is
BAR0. -/
theorem pciEnumerateDevices_matches_iff (heap : HeapArray) (ports : ConfigPorts) (m : Mem)
    (heapIndex : Word) :
    (∀ fuel r, pciEnumerateDevices heap ports fuel m heapIndex = some r →
        Matches ports.config r.1 r.2.2.scan.mem) ↔
      (listOf heap heapIndex ≠ 0 → PortsMatch heap ports.config m heapIndex) := by
  refine ⟨fun h hlist => portsMatch_of_matches hlist h, fun h => forall_returned_iff.mpr ?_⟩
  intro fuel r hr
  by_cases hlist : listOf heap heapIndex = 0
  · have hnull := malloc_listOf heap heapIndex
    rw [hlist] at hnull
    rw [enumerateDevices_of_null hnull] at hr
    obtain rfl := Option.some.inj hr
    exact fun d hd => absurd hd List.not_mem_nil
  · obtain ⟨j, s, hs, hfull, hr1, hr2⟩ := filled_of_returned hlist hr
    rw [hr1, hr2, hs.matches_iff hfull]
    exact h hlist

/-- One function, at bus 0, device 1, with an I/O BAR0. -/
def ide : ConfigPorts where
  config a :=
    if a = 0x80000800 then 0x70108086 else if a = 0x80000810 then 0xC001 else 0xFFFFFFFF
  latch := 0

theorem recorded_ide : (recorded ide.config)[0]? = some ⟨0, 1, 0⟩ := by
  have hfirst : (visited 1).filter (present ide.config) = [⟨0, 1, 0⟩] := by decide +kernel
  obtain ⟨ws, hws⟩ := visited_add 1 (256 * maxPciDevices - 1)
  rw [Nat.add_sub_cancel' (by decide)] at hws
  rw [recorded, hws, List.filter_append, hfirst]
  rfl

/-- It is recorded with its identification for a port. -/
theorem not_matches_ide : ¬ ∀ (heap : HeapArray) (ports : ConfigPorts) (m : Mem) (heapIndex : Word),
    (∀ f, present ports.config f = true → bar0 ports.config f ≠ 0) →
      ∀ fuel r, pciEnumerateDevices heap ports fuel m heapIndex = some r →
        Matches ports.config r.1 r.2.2.scan.mem := by
  intro hall
  have hne : ∀ f, bar0 ide.config f ≠ 0 := by
    intro f
    simp only [bar0, readConfigSpace, ide]
    split_ifs <;> decide
  have hlist : listOf Heap.heapAt4M 0 ≠ 0 := by decide
  have hport := portsMatch_of_matches hlist (hall Heap.heapAt4M ide (fun _ => 0) 0
    fun f _ => hne f) 0 _ recorded_ide
  exact absurd hport (by decide +kernel)

end Matches

end PortScan

end HuskyKernel
