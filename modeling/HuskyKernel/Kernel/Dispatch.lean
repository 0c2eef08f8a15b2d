import HuskyKernel.Kernel.Console

/-!
# Kernel/Dispatch — what the commands do, and whole sessions

Each branch of the prompt is read once (`performs`).  None of them takes the blank away that lines
are cut at: `lsdisks` alone writes to memory, and what it writes lies in the heap, behind it or at
address 0 (`ready_lsdisks`).  So a session is the one that `Kernel.prompt` has with the words that
were typed (`session_prompt`), whatever has been listed in between.
-/

namespace HuskyKernel

open Mem Strtok CommandLine

/-! ## What `lsdisks` writes -/

namespace Pci

variable {config : Config} {list : Word} {m : Mem} {x : Word}

/-- Nothing but the list is written. -/
theorem framed_invariant (config : Config) (list : Word) (m : Mem) :
    ScanInvariant config list fun vs s =>
      s.deviceCount = ((vs.filter (present config)).take maxPciDevices).length ∧
        ∀ x, ¬ Within list (pciDeviceSize * maxPciDevices) x → s.mem x = m x where
  count h := h.1
  absent h hf := ⟨by rw [take_absent hf]; exact h.1, h.2⟩
  full h hs ws := ⟨by rw [take_full (h.1.symm.trans hs)]; exact h.1, h.2⟩
  printk h _ _ := h
  found {vs s f t} h hf hroom hcount hmem := by
    refine ⟨?_, fun x hx => ?_⟩
    · rw [take_found hf (h.1 ▸ hroom), List.length_append, List.length_singleton, ← h.1, hcount]
    · rw [hmem, store_frame fun hin => hx (Within.of_add hin ?_), h.2 x hx]
      simp only [pciDeviceSize]
      omega

/-- **The enumeration writes its list**, of at most 128 devices, and nothing else. -/
theorem enumerateDevices_frame {heap : HeapArray} {fuel : ℕ} {heapIndex : Word}
    {r : PciDeviceList × Word × Scan} (h : enumerateDevices heap config fuel m heapIndex = some r)
    (hindex : heapIndex ≤ heapSize) : r.1.length ≤ maxPciDevices ∧ r.2.1 ≤ heapSize ∧
      ∀ x, ¬ Within (heap.base + heapIndex) (pciDeviceSize * maxPciDevices) x →
        r.2.2.mem x = m x := by
  let size := BitVec.ofNat 32 (maxPciDevices * pciDeviceSize)
  have hnext : (malloc heap size heapIndex).2 ≤ heapSize := Heap.malloc_snd_le hindex
  by_cases hroom : heapIndex + size > heapSize
  · rw [Heap.malloc_of_gt hroom] at hnext
    rw [enumerateDevices_of_null (Heap.malloc_of_gt hroom)] at h
    obtain rfl := Option.some.inj h
    exact ⟨Nat.zero_le _, hnext, fun x _ => rfl⟩
  · rw [Heap.malloc_of_le hroom] at hnext
    rw [enumerateDevices_of_ne_null (Heap.base_add_ne_zero hindex)
      (Heap.malloc_of_le hroom)] at h
    obtain ⟨t, ht, hr⟩ := Option.bind_eq_some_iff.mp h
    obtain rfl := Option.some.inj hr
    let s : Scan := (⟨m, 0, []⟩ : Scan).printk "Starting PCI enumeration...\n" []
    rcases (framed_invariant config (heap.base + heapIndex) m).busLoop fuel (k := 0) (s := s)
      ⟨rfl, fun x _ => rfl⟩ with ⟨j, t', -, hrun, hframe, hcount⟩ | ⟨hrun, -⟩
    · obtain rfl := Option.some.inj (hrun.symm.trans ht)
      exact ⟨hcount.le, hnext, hframe.2⟩
    · cases hrun.symm.trans ht

end Pci

theorem Heap.malloc_fst_of {heap : HeapArray} {size i : Word} {P : Word → Prop} (h0 : P 0)
    (hbase : P (heap.base + i)) : P (malloc heap size i).1 := by
  by_cases hroom : i + size > heapSize
  · rwa [Heap.malloc_of_gt hroom]
  · rwa [Heap.malloc_of_le hroom]

namespace Disks

variable {heap : MappedHeap} {config : Pci.Config} {l : PciDeviceList} {x : Word}

/-- The second pass writes at most one entry for each device. -/
theorem fillLoop_frame {p : Word} (n : ℕ) (hx : ¬ Within p (pciDeviceSize * n) x) :
    ∀ (is : List ℕ) (j : ℕ) (s : Listing), j + is.length ≤ n →
      (fillLoop heap.toHeapArray config l p is j s).mem x = s.mem x
  | [], _, _, _ => rfl
  | i :: is, j, s, hj => by
      rw [List.length_cons] at hj
      rw [fillLoop]
      by_cases ht : (typeOf heap.toHeapArray config (l.entry i) (s.printk i)).1 ≠ .null
      · simp only [if_pos ht]
        rw [fillLoop_frame n hx is (j + 1) _ (by omega)]
        have hlen : ((s.mem.load (l.entry i) pciDeviceSize)).length = pciDeviceSize :=
          length_load _ _
        refine store_of_not_within (by rw [length_load]; decide) fun hin => hx ?_
        rw [length_load] at hin
        refine Within.of_add hin ?_
        simp only [pciDeviceSize]
        omega
      · simp only [if_neg ht]
        exact fillLoop_frame n hx is j _ (by omega)

/-- **A listing writes a list of at most one entry for each device**, in the heap or at address 0,
and nothing else. -/
theorem getAhciDevices_frame {s : Listing} (hs : Fits 0 s.maps)
    (hx : ∀ i, i ≤ heapSize → ¬ Within (heap.base + i) (pciDeviceSize * l.length) x)
    (h0 : ¬ Within 0 (pciDeviceSize * l.length) x) :
    (getAhciDevices heap.toHeapArray config l s).2.mem x = s.mem x := by
  have hcount : (countLoop heap.toHeapArray config l (List.range l.length) 0 s).2.maps.heapIndex ≤
      heapSize := by
    have hports := fits_zero_iterate heap (List.range l.length).length (p := s.ports) hs
    rw [← countLoop_ports heap config l _ 0] at hports
    exact hports.heapIndex_le
  rw [show (getAhciDevices heap.toHeapArray config l s).2.mem =
    (listDevices heap.toHeapArray config l s).2.mem from rfl, listDevices]
  dsimp only
  rw [fillLoop_frame l.length _ _ _ _ (by simp)]
  · exact congrFun (countLoop_mem heap config l _ _ _) x
  · exact Heap.malloc_fst_of (P := fun a => ¬ Within a _ x) h0 (hx _ hcount)

end Disks

theorem Platform.apart_heap (w : Platform) {x i : Word} (hx : Within w.blank 2 x)
    (hi : i ≤ heapSize) : ¬ Within (w.heap.base + i) (pciDeviceSize * Pci.maxPciDevices) x := by
  have hfits := w.heap.fits
  have hloaded := w.loaded
  have hfirst := w.constants_first
  simp only [Within, heapSize, pciDeviceSize, Pci.maxPciDevices] at *
  bv_omega

theorem Platform.apart_null (w : Platform) {x : Word} (hx : Within w.blank 2 x) :
    ¬ Within 0 (pciDeviceSize * Pci.maxPciDevices) x := by
  have hfits := w.heap.fits
  have hloaded := w.loaded
  have hfirst := w.constants_first
  simp only [Within, pciDeviceSize, Pci.maxPciDevices] at *
  bv_omega

/-! ## What a command does -/

namespace Kernel

variable {k : Kernel} {answer : Calls → List Byte → Bool}

/-- What a round of `Kernel.prompt` does, by its command. -/
theorem prompt_eq (name : List Byte) (args : List (List Byte)) (keys : List KeyPress)
    (echo output : List TerminalOp) :
    k.prompt answer ⟨name :: args, keys, echo, output⟩ =
      match commandOf name with
      | .cl => some (cl args { k with screen := k.screen ++ echo })
      | .edit => edit answer keys { k with screen := k.screen ++ echo }
      | .run => run answer { k with screen := k.screen ++ echo }
      | _ => some { k with screen := k.screen ++ echo ++ output } := by
  rw [prompt]
  have hcl : commandOf name = .cl ↔ strcmp name (str "cl") = 0 :=
    commandOf_eq_iff (by decide) name
  have hedit : commandOf name = .edit ↔ strcmp name (str "edit") = 0 :=
    commandOf_eq_iff (by decide) name
  have hrun : commandOf name = .run ↔ strcmp name (str "run") = 0 :=
    commandOf_eq_iff (by decide) name
  simp only [← hcl, ← hedit, ← hrun]
  cases commandOf name <;> rfl

end Kernel

namespace Console

variable {w : Platform} {s t u : Console} {e : Entry} {b : Bool} {name : List Byte}
  {args : List (List Byte)}

/-- Only the screen may differ. -/
def Shows (k k' : Kernel) : Prop := ∃ output, k' = { k with screen := k.screen ++ output }

/-- `reboot` and `shutdown` leave memory alone. -/
theorem powerOff_cases {failed : List Byte} (h : t.powerOff w failed = some u) :
    ∃ acpi text, u = { t with acpi }.write text := by
  rw [powerOff, Option.bind_eq_bind] at h
  obtain ⟨⟨r, acpi⟩, -, h⟩ := Option.bind_eq_some_iff.mp h
  dsimp only at h
  split_ifs at h
  · obtain ⟨⟨⟨⟩, acpi'⟩, -, h⟩ := Option.bind_eq_some_iff.mp h
    exact ⟨_, _, (Option.some.inj h).symm⟩
  · exact ⟨_, _, (Option.some.inj h).symm⟩

/-- What is printed of a list changes nothing else. -/
theorem printLoop_eq {val : ℕ} (n : ℕ) {i : ℕ} {l l' : Disks.Listing}
    (h : printLoop w val n i l = some l') : ∃ printed, l' = { l with printed } := by
  induction n generalizing i l with
  | zero => cases h
  | succ n ih =>
    rw [printLoop] at h
    split_ifs at h
    · obtain ⟨printed, rfl⟩ := ih h
      exact ⟨printed, rfl⟩
    · exact ⟨l.printed, (Option.some.inj h).symm⟩

/-- **`lsdisks`, step by step**: the enumeration, the listing, and what is printed of a list that is
gone, whatever is read of it. -/
theorem lsdisks_cases (h : t.lsdisks w = some u) : ∃ list heapIndex scan text printed,
    Pci.enumerateDevices w.heap.toHeapArray w.config w.fuel t.mem t.listing.maps.heapIndex =
        some (list, heapIndex, scan) ∧
      u.kernel = t.kernel.write text ∧
      u.listing = { (Disks.getAhciDevices w.heap.toHeapArray w.config list
        (afterScan heapIndex scan.mem t.listing)).2 with printed } := by
  rw [lsdisks] at h
  obtain ⟨⟨list, heapIndex, scan⟩, hscan, h⟩ := Option.bind_eq_some_iff.mp h
  obtain ⟨l, hl, h⟩ := Option.bind_eq_some_iff.mp h
  obtain rfl := Option.some.inj h
  obtain ⟨printed, rfl⟩ := printLoop_eq w.fuel hl
  exact ⟨list, heapIndex, scan, _, printed, hscan, rfl, rfl⟩

theorem kernel_lsdisks (h : t.lsdisks w = some u) : Shows t.kernel u.kernel := by
  obtain ⟨_, _, _, _, _, _, hkernel, _⟩ := lsdisks_cases h
  exact ⟨_, hkernel⟩

/-- What a command does, with the words behind its name, and whether it leaves the prompt. -/
inductive Performs (w : Platform) (e : Entry) (args : List (List Byte)) (t : Console) :
    Command → Bool → Console → Prop
  | prints {c : Command} (hc : c = .help ∨ c = .getkey ∨ c = .unknown) (text : List Byte) :
      Performs w e args t c false (t.write text)
  | cl : Performs w e args t .cl false { t with kernel := t.kernel.cl args }
  | edit {k : Kernel} (hk : t.kernel.edit w.answer e.edits = some k) :
      Performs w e args t .edit false { t with kernel := k }
  | run {k : Kernel} (hk : t.kernel.run w.answer = some k) :
      Performs w e args t .run false { t with kernel := k }
  | lsdisks {u : Console} (hu : t.lsdisks w = some u) : Performs w e args t .lsdisks false u
  | powerOff {c : Command} (hc : c = .reboot ∨ c = .shutdown) {failed : List Byte} {u : Console}
      (hu : t.powerOff w failed = some u) : Performs w e args t c true u

/-- **The chain of branches**, each read once. -/
theorem performs (harg : ∀ {i word}, (name :: args)[i]? = some word → t.arg i = some word)
    (h : t.perform w e (args.length + 1) = some (b, u)) :
    Performs w e args t (commandOf name) b u := by
  have hsome {b' : Bool} {u' : Console} (h : (some (b', u') : Option (Bool × Console)) =
      some (b, u)) : b' = b ∧ u' = u := Prod.ext_iff.mp (Option.some.inj h)
  rw [perform, harg (i := 0) rfl, Option.bind_eq_bind, Option.bind_some] at h
  cases hc : commandOf name with
  | help =>
    rw [hc] at h
    obtain ⟨rfl, rfl⟩ := hsome h
    exact .prints (.inl rfl) _
  | cl =>
    rw [hc] at h
    cases args with
    | nil =>
      obtain ⟨rfl, rfl⟩ := hsome h
      exact .cl
    | cons word args =>
      dsimp only at h
      rw [if_pos (by simp), harg (i := 1) rfl] at h
      obtain ⟨rfl, rfl⟩ := hsome h
      exact .cl
  | getkey =>
    rw [hc] at h
    dsimp only at h
    split_ifs at h
    · obtain ⟨text, -, h⟩ := Option.bind_eq_some_iff.mp h
      obtain ⟨rfl, rfl⟩ := hsome h
      exact .prints (.inr (.inl rfl)) _
    · obtain ⟨rfl, rfl⟩ := hsome h
      exact .prints (.inr (.inl rfl)) _
  | edit =>
    rw [hc] at h
    obtain ⟨k, hk, h⟩ := Option.bind_eq_some_iff.mp h
    obtain ⟨rfl, rfl⟩ := hsome h
    exact .edit hk
  | run =>
    rw [hc] at h
    obtain ⟨k, hk, h⟩ := Option.bind_eq_some_iff.mp h
    obtain ⟨rfl, rfl⟩ := hsome h
    exact .run hk
  | reboot =>
    rw [hc] at h
    obtain ⟨v, hv, h⟩ := Option.bind_eq_some_iff.mp h
    obtain ⟨rfl, rfl⟩ := hsome h
    exact .powerOff (.inl rfl) hv
  | lsdisks =>
    rw [hc] at h
    obtain ⟨v, hv, h⟩ := Option.bind_eq_some_iff.mp h
    obtain ⟨rfl, rfl⟩ := hsome h
    exact .lsdisks hv
  | shutdown =>
    rw [hc] at h
    obtain ⟨v, hv, h⟩ := Option.bind_eq_some_iff.mp h
    obtain ⟨rfl, rfl⟩ := hsome h
    exact .powerOff (.inr rfl) hv
  | unknown =>
    rw [hc] at h
    obtain ⟨text, -, h⟩ := Option.bind_eq_some_iff.mp h
    obtain ⟨rfl, rfl⟩ := hsome h
    exact .prints (.inr (.inr rfl)) _

/-- **To the kernel a command does what `Kernel.prompt` does.** -/
theorem prompt_of_performs {k : Kernel} {echo : List TerminalOp}
    (hk : t.kernel = { k with screen := k.screen ++ echo })
    (h : Performs w e args t (commandOf name) b u) :
    ∃ output, k.prompt w.answer ⟨name :: args, e.edits, echo, output⟩ = some u.kernel := by
  have hshows {c : Command} (hc : c ≠ .cl ∧ c ≠ .edit ∧ c ≠ .run) (hu : Shows t.kernel u.kernel)
      (hname : commandOf name = c) :
      ∃ output, k.prompt w.answer ⟨name :: args, e.edits, echo, output⟩ = some u.kernel := by
    obtain ⟨output, houtput⟩ := hu
    refine ⟨output, ?_⟩
    rw [Kernel.prompt_eq, hname, houtput, hk]
    cases c <;> simp at hc ⊢
  generalize hname : commandOf name = c at h
  cases h with
  | prints hc text => exact hshows (by rcases hc with rfl | rfl | rfl <;> decide) ⟨_, rfl⟩ hname
  | cl => exact ⟨[], by rw [Kernel.prompt_eq, hname, ← hk]⟩
  | edit hk' => exact ⟨[], by rw [Kernel.prompt_eq, hname, ← hk, hk']⟩
  | run hk' => exact ⟨[], by rw [Kernel.prompt_eq, hname, ← hk, hk']⟩
  | lsdisks hu => exact hshows (by decide) (kernel_lsdisks hu) hname
  | powerOff hc hu =>
    obtain ⟨acpi, text, rfl⟩ := powerOff_cases hu
    exact hshows (by rcases hc with rfl | rfl <;> decide) ⟨_, rfl⟩ hname

/-- **`lsdisks` leaves `.rodata` as it is**, and table and heap within their bounds. -/
theorem ready_lsdisks (ht : Ready w t) (h : t.lsdisks w = some u) : Ready w u := by
  obtain ⟨list, heapIndex, scan, _, printed, hscan, _, hu⟩ := lsdisks_cases h
  obtain ⟨hlen, hindex, hframe⟩ := Pci.enumerateDevices_frame hscan ht.bounds.heapIndex_le
  have hlist : pciDeviceSize * list.length ≤ pciDeviceSize * Pci.maxPciDevices :=
    Nat.mul_le_mul_left _ hlen
  have hbounds : Disks.Fits 0 (afterScan heapIndex scan.mem t.listing).maps :=
    ⟨ht.bounds.1, BitVec.le_def.mp hindex⟩
  refine ⟨cstr?_congr ht.blank fun x hx => ?_, ?_⟩
  · rw [mem, hu]
    refine (Disks.getAhciDevices_frame hbounds (fun i hi hin => ?_) fun hin => ?_).trans ?_
    · exact w.apart_heap hx hi (hin.mono hlist)
    · exact w.apart_null hx (hin.mono hlist)
    · exact hframe x (w.apart_heap hx ht.bounds.heapIndex_le)
  · rw [hu]
    exact Disks.fits_zero_getAhciDevices hbounds

/-- **A command leaves the prompt ready.** -/
theorem ready_of_performs {c : Command} (ht : Ready w t) (h : Performs w e args t c b u) :
    Ready w u := by
  cases h with
  | prints | cl | edit | run => exact ⟨ht.blank, ht.bounds⟩
  | lsdisks hu => exact ready_lsdisks ht hu
  | powerOff _ hu =>
    obtain ⟨acpi, text, rfl⟩ := powerOff_cases hu
    exact ⟨ht.blank, ht.bounds⟩

/-! ## Sessions -/

theorem Heard.ready {text : List Byte} (h : Heard w text s t) (hs : Ready w s) : Ready w t where
  blank := cstr?_congr hs.blank fun x hx => h.frame x (w.blank_ne_null hx) (w.apart x hx)
  bounds := h.maps ▸ hs.bounds

/-- **A round is the one of `Kernel.prompt`** with the words that were typed; only `reboot` and
`shutdown` are the last. -/
theorem round_prompt (hs : Ready w s) (y : Typing)
    (hfew : (wordsOf (s.typed y)).length ≤ argsSize) (h : s.round w y.entry = some (b, u)) :
    Ready w u ∧ (b = true → ∃ name args, wordsOf (s.typed y) = name :: args ∧
        (commandOf name = .reboot ∨ commandOf name = .shutdown)) ∧
      ∃ echo output, s.kernel.prompt w.answer ⟨wordsOf (s.typed y), y.edits, echo, output⟩ =
        some u.kernel := by
  obtain ⟨t, ht, hhear⟩ := exists_heard hs.blank y hfew
  have hround := round_of_hear hhear
  obtain ⟨echo, hecho⟩ := ht.kernel
  have hready : Ready w t := ht.ready hs
  have harg {i : ℕ} {word : List Byte} (hword : (wordsOf (s.typed y))[i]? = some word) :
      t.arg i = some word := ht.arg hword
  rw [h] at hround
  cases hwords : wordsOf (s.typed y) with
  | nil =>
    rw [hwords] at hround
    have hsame : b = false ∧ u = t := Prod.ext_iff.mp (Option.some.inj hround)
    obtain ⟨rfl, rfl⟩ := hsame
    exact ⟨hready, fun hb => absurd hb Bool.false_ne_true, echo, [], by rw [hecho]; rfl⟩
  | cons name args =>
    rw [hwords] at hround harg
    have hperforms := performs harg hround.symm
    refine ⟨ready_of_performs hready hperforms, fun hb => ⟨name, args, rfl, ?_⟩, echo,
      prompt_of_performs hecho hperforms⟩
    subst hb
    generalize commandOf name = c at hperforms
    cases hperforms with
    | powerOff hc _ => exact hc

/-- Rounds in which at most ten words are typed, none of them the last: what is typed in each, and
the keys the editor reads. -/
inductive Session (w : Platform) :
    Console → List (List (List Byte) × List KeyPress) → Console → Prop
  | nil (s : Console) : Session w s [] s
  | cons {s t u : Console} {l : List (List (List Byte) × List KeyPress)} (y : Typing)
      (hfew : (wordsOf (s.typed y)).length ≤ argsSize)
      (hround : s.round w y.entry = some (false, t)) (hrest : Session w t l u) :
      Session w s ((wordsOf (s.typed y), y.edits) :: l) u

/-- **A session is one of `Kernel.prompt`**: the kernel gets the words that are typed, round by
round, from memory that is ready for them — induction on the session. -/
theorem session_prompt {l : List (List (List Byte) × List KeyPress)} (hs : Ready w s)
    (h : Session w s l t) : Ready w t ∧ ∃ rs : List Round, rs.map (fun r => (r.args, r.keys)) = l ∧
      rs.foldlM (fun k r => k.prompt w.answer r) s.kernel = some t.kernel := by
  induction h with
  | nil s => exact ⟨hs, [], rfl, rfl⟩
  | cons y hfew hround hrest ih =>
    obtain ⟨hready, -, echo, output, hprompt⟩ := round_prompt hs y hfew hround
    obtain ⟨ht, rs, hmap, hrs⟩ := ih hready
    refine ⟨ht, ⟨_, y.edits, echo, output⟩ :: rs, by rw [List.map_cons, hmap], ?_⟩
    rw [List.foldlM_cons, hprompt]
    exact hrs

/-- Words that can be typed are heard. -/
theorem exists_typed {ws : List (List Byte)} (hs : s.mem.cstr? w.blank = some (str " "))
    (hwords : ∀ word ∈ ws, IsWord word)
    (htypable : ∀ c ∈ lineOf ws, c ∈ typable s.kernel.currentLayout)
    (hlen : (lineOf ws).length < commandSize) (hfew : ws.length ≤ argsSize) :
    ∃ (y : Typing) (t : Console), wordsOf (s.typed y) = ws ∧ y.edits = [] ∧
      Heard w (s.typed y) s t ∧ s.round w y.entry =
        if ws.length = 0 then some (false, t) else t.perform w y.entry ws.length := by
  let y : Typing := ⟨.ofText htypable hlen, fun _ => 0, []⟩
  have hline : wordsOf (s.typed y) = ws := by
    rw [show s.typed y = _ from text_ofText htypable hlen _ _, wordsOf_lineOf hwords]
  obtain ⟨t, ht, hhear⟩ := exists_heard hs y (hline ▸ hfew)
  exact ⟨y, t, hline, rfl, ht, hline ▸ round_of_hear hhear⟩

/-- `help`, and a word that is no command: the prompt goes on, in the layout it was in. -/
theorem exists_prints (name : List Byte) (args : List (List Byte)) (hs : Ready w s)
    (hc : commandOf name = .help ∨ commandOf name = .unknown)
    (hwords : ∀ word ∈ name :: args, IsWord word)
    (htypable : ∀ c ∈ lineOf (name :: args), c ∈ typable s.kernel.currentLayout)
    (hlen : (lineOf (name :: args)).length < commandSize)
    (hfew : (name :: args).length ≤ argsSize) :
    ∃ (y : Typing) (t : Console), wordsOf (s.typed y) = name :: args ∧ y.edits = [] ∧
      s.round w y.entry = some (false, t) ∧ Ready w t ∧
      t.kernel.currentLayout = s.kernel.currentLayout := by
  obtain ⟨y, t, hline, hedits, ht, hround⟩ := exists_typed hs.blank hwords htypable hlen hfew
  obtain ⟨echo, hecho⟩ := ht.kernel
  have hready : Ready w t := ht.ready hs
  have hlayout : t.kernel.currentLayout = s.kernel.currentLayout := by rw [hecho]
  have hwrite (text : List Byte) : Ready w (t.write text) ∧
      (t.write text).kernel.currentLayout = s.kernel.currentLayout :=
    ⟨⟨hready.blank, hready.bounds⟩, hlayout⟩
  have hname : t.arg 0 = some name := ht.arg (i := 0) (by rw [hline]; rfl)
  rw [if_neg (by simp), perform, hname, Option.bind_eq_bind, Option.bind_some] at hround
  rcases hc with hc | hc
  · rw [hc] at hround
    exact ⟨y, _, hline, hedits, hround, hwrite _⟩
  · obtain ⟨r, hr⟩ : ∃ r, (words (s.typed y)).head? = some r := by
      cases hcut : words (s.typed y) with
      | nil =>
        rw [wordsOf, hcut] at hline
        cases hline
      | cons r rs => exact ⟨r, rfl⟩
    rw [hc] at hround
    dsimp only at hround
    rw [ht.command hr] at hround
    exact ⟨y, _, hline, hedits, hround, hwrite _⟩

/-- At the first prompt, a command there is not, and then `help`. -/
theorem session_prompt_help : ∃ t,
    Session .sample firstPrompt [([str "format", str "c"], []), ([str "help"], [])] t ∧
      Ready .sample t ∧ ∃ rs : List Round,
        rs.map (fun r => (r.args, r.keys)) = [([str "format", str "c"], []), ([str "help"], [])] ∧
          rs.foldlM (fun k r => k.prompt Platform.sample.answer r) firstPrompt.kernel =
            some t.kernel := by
  have hword {word : List Byte} (h : word ≠ [] ∧ chr ' ' ∉ word) : IsWord word := ⟨h.1, h.2⟩
  have hus {s : Console} (hlayout : s.kernel.currentLayout = firstPrompt.kernel.currentLayout)
      {ws : List (List Byte)} (h : ∀ c ∈ lineOf ws, c ∈ typable .us) :
      ∀ c ∈ lineOf ws, c ∈ typable s.kernel.currentLayout := by
    rw [hlayout]
    exact h
  obtain ⟨y, s, hline, hedits, hround, hs, hlayout⟩ := exists_prints (str "format")
    [str "c"] ready_firstPrompt (.inr (by decide +kernel))
    (List.forall_mem_cons.mpr ⟨hword (by decide +kernel),
      List.forall_mem_singleton.mpr (hword (by decide +kernel))⟩)
    (hus rfl (by decide +kernel)) (by decide +kernel) (by decide)
  obtain ⟨y', t, hline', hedits', hround', -, -⟩ := exists_prints (str "help") [] hs
    (.inl (commandOf_word .help)) (List.forall_mem_singleton.mpr (hword (by decide +kernel)))
    (hus hlayout (by decide +kernel)) (by decide +kernel) (by decide)
  have hlast : Session .sample s [([str "help"], [])] t := by
    have hone := Session.cons y' (by rw [hline']; decide) hround' (.nil t)
    rwa [hline', hedits'] at hone
  have hsession : Session .sample firstPrompt
      [([str "format", str "c"], []), ([str "help"], [])] t := by
    have htwo := Session.cons y (by rw [hline]; decide) hround hlast
    rwa [hline, hedits] at htwo
  exact ⟨t, hsession, session_prompt ready_firstPrompt hsession⟩

end Console

end HuskyKernel
