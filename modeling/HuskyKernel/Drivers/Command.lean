import HuskyKernel.Drivers.Disk

/-!
# Drivers/Command — the command `read` builds

The test of the region loop is `i++`, which is 0: the body never runs, `i` is left at 1, and the
"last entry" is entry 1.  Entry 0 keeps the zeros of the `memset`, which a controller reads as one
byte at address 0.  So no command `read` issues describes its transfer (`not_described`).
-/

namespace HuskyKernel

open Mem Wp

namespace Stores

variable {s : Stores} {m : Mem} {a x e v : Word} {bs : List Byte} {l : List (ℕ × Byte)} {n : ℕ}

/-! ## What a store leaves alone -/

theorem mem_addresses : x ∈ addresses a n ↔ Within a n x := by
  simp only [addresses, List.mem_map, List.mem_range]
  constructor
  · rintro ⟨k, hk, rfl⟩
    exact Within.add hk
  · intro hx
    refine ⟨(x - a).toNat, hx, ?_⟩
    rw [BitVec.ofNat_toNat, BitVec.setWidth_eq]
    exact add_sub_cancel a x

theorem put_mem_of_not_within (h : bs.length ≤ span) (hx : ¬ Within a bs.length x) :
    (s.put a bs).mem x = s.mem x :=
  store_of_not_within h hx

theorem mem_stored_put : x ∈ (s.put a bs).stored ↔ x ∈ s.stored ∨ Within a bs.length x := by
  rw [put, List.mem_append, mem_addresses]

/-- From `s` to `t` more has been stored, all of it in `P`. -/
structure Adds (P : Word → Prop) (s t : Stores) : Prop where
  kept : s.stored ⊆ t.stored
  stored : ∀ x ∈ t.stored, x ∈ s.stored ∨ P x
  frame : ∀ x, ¬ P x → t.mem x = s.mem x

section Adds

variable {P Q : Word → Prop} {t u : Stores}

theorem Adds.refl (s : Stores) : Adds P s s :=
  ⟨List.Subset.refl _, fun _ hx => Or.inl hx, fun _ _ => rfl⟩

theorem Adds.trans (h : Adds P s t) (h' : Adds P t u) : Adds P s u :=
  ⟨List.Subset.trans h.kept h'.kept, fun x hx => (h'.stored x hx).elim (h.stored x) Or.inr,
    fun x hx => (h'.frame x hx).trans (h.frame x hx)⟩

theorem Adds.mono (h : Adds P s t) (hPQ : ∀ x, P x → Q x) : Adds Q s t :=
  ⟨h.kept, fun x hx => (h.stored x hx).imp_right (hPQ x),
    fun x hx => h.frame x fun hP => hx (hPQ x hP)⟩

theorem adds_put (hbs : bs.length ≤ span) : Adds (Within a bs.length) s (s.put a bs) :=
  ⟨List.subset_append_left _ _, fun _ hx => mem_stored_put.mp hx,
    fun _ hx => put_mem_of_not_within hbs hx⟩

theorem adds_memset (m : Mem) (a : Word) (v : Byte) (hn : n ≤ span) :
    Adds (Within a n) ⟨m, []⟩ ⟨m.memset a v n, addresses a n⟩ :=
  ⟨List.nil_subset _, fun _ hx => Or.inr (mem_addresses.mp hx),
    fun _ hx => memset_of_not_within hn hx⟩

/-- Assigning fields of a structure stays inside it. -/
theorem adds_putBytes (hl : ∀ p ∈ l, p.1 < n) : Adds (Within a n) s (s.putBytes a l) := by
  induction l generalizing s with
  | nil => exact Adds.refl s
  | cons p l ih =>
    have hp : Adds (Within a n) s (s.put (a + BitVec.ofNat 32 p.1) [p.2]) :=
      (adds_put (show [p.2].length ≤ span from Nat.one_le_two_pow)).mono fun x hx =>
        Within.of_add hx (hl p List.mem_cons_self)
    exact hp.trans (ih fun q hq => hl q (List.mem_cons_of_mem _ hq))

/-- The fields of a region entry. -/
theorem adds_setDba : Adds (Within e 16) s (s.setDba e v) :=
  (adds_put (length_bytes32_le _)).mono fun _ hx => hx.mono (show 4 ≤ 16 by decide)

theorem adds_dword3 : Adds (Within e 16) s (s.put (e + 12) (bytes32 v)) :=
  (adds_put (length_bytes32_le _)).mono fun _ hx =>
    Within.of_add (k := 12) hx (show 12 + 4 ≤ 16 by decide)

theorem adds_entry (dba dbc : Word) :
    Adds (Within e 16) s (((s.setDba e dba).setDbc e dbc).setI e) :=
  (adds_setDba.trans adds_dword3).trans adds_dword3

/-- The address in a region entry survives the other two assignments. -/
theorem entry_dba (dba dbc : Word) :
    (((s.setDba e dba).setDbc e dbc).setI e).mem.word e = dba := by
  refine (word_congr fun x hx => ?_).trans (word_store (m := s.mem) dba)
  have hd : ¬ Within (e + 12) 4 x := fun hd => by
    have hge := ((Within.add_iff (k := 12) (by decide)).mp hd).1
    rw [Within] at hx
    omega
  exact (put_mem_of_not_within (length_bytes32_le _) hd).trans
    (put_mem_of_not_within (length_bytes32_le _) hd)

theorem adds_setFis (tbl startl starth count : Word) :
    Adds (Within tbl 16) s (setFis s tbl startl starth count) :=
  adds_putBytes (by simp)

end Adds

end Stores

/-! ## The command, read off -/

/-- The region entry `i` describes: its address, and its length, one more than its `dbc`. -/
def region (m : Mem) (tbl : Word) (i : ℕ) : Word × ℕ :=
  (m.word (tbl + BitVec.ofNat 32 (128 + 16 * i)),
    ((m.word (tbl + BitVec.ofNat 32 (128 + 16 * i) + 12)).extractLsb' 0 22).toNat + 1)

section Command

variable {m : Mem} {clb : Word} {slot : ℕ} {startl starth count buf x : Word}

/-- The number of entries `read` computes. -/
def prdtlOf (count : Word) : BitVec 16 := ((count - 1) >>> 4).setWidth 16 + 1

/-- The size of the command table, as `read` passes it to `memset`. -/
def tableSize (count : Word) : ℕ := (144 + ((prdtlOf count).setWidth 32 - 1) * 16 : Word).toNat

/-- The slot's command table: `cmdheader->ctba`. -/
def tableOf (m : Mem) (clb : Word) (slot : ℕ) : Word := m.word (header clb slot + 8)

/-- The header's first word is not where its `ctba` is. -/
theorem setHeader_frame (h : Word) (hx : ¬ Within h 4 x) : setHeader m h count x = m x := by
  have h0 : x ≠ h := fun heq => hx (heq ▸ Within.start (by decide))
  have h2 : ¬ Within (h + 2) 2 x := fun h2 => hx (Within.of_add (k := 2) h2 (by decide))
  rw [setHeader, store_of_not_within (length_bytes16_le _) h2, poke, poke,
    Function.update_of_ne h0, Function.update_of_ne h0]

theorem tableOf_setHeader : (setHeader m (header clb slot) count).word (header clb slot + 8) =
    tableOf m clb slot := by
  refine word_congr fun x hx => setHeader_frame _ fun h4 => ?_
  have hge := ((Within.add_iff (k := 8) (by decide)).mp hx).1
  rw [Within] at h4
  omega

theorem prdtl_setHeader (h : Word) : (setHeader m h count).word16 (h + 2) = prdtlOf count :=
  word16_store _

/-- **The loop body never runs**: the first test is 0, and leaves `i` at 1. -/
theorem loop_eq (tbl : Word) (s : Stores) :
    Regions.loop tbl span ⟨s, 0, buf, count⟩ = ⟨s, 1, buf, count⟩ :=
  if_pos rfl

/-- The command before its FIS: a zeroed table, and entry 1 filled. -/
def tableStores (m : Mem) (tbl count buf : Word) : Stores :=
  ((Stores.setDba ⟨m.memset tbl 0 (tableSize count), addresses tbl (tableSize count)⟩
    (tbl + 144) buf).setDbc (tbl + 144) (count <<< 9 - 1)).setI (tbl + 144)

theorem setupCommand_eq : setupCommand m clb slot startl starth count buf =
    setFis (tableStores (setHeader m (header clb slot) count) (tableOf m clb slot) count buf)
      (tableOf m clb slot) startl starth count := by
  have he : prdtEntry (tableOf m clb slot) 1 = tableOf m clb slot + 144 := by
    rw [prdtEntry]
    bv_omega
  simp only [setupCommand, tableOf_setHeader, prdtl_setHeader, loop_eq, he, tableStores,
    tableSize]

/-! ## What the controller finds

The table holds `128 + 16 * prdtl` zeroed bytes; on top of them lie entry 1 and the FIS, so entry 0
is still zero. -/

theorem prdtlOf_toNat :
    (prdtlOf count).toNat = ((count - 1).toNat / 16 % 65536 + 1) % 65536 := by
  rw [prdtlOf, BitVec.toNat_add, BitVec.toNat_setWidth, BitVec.toNat_ushiftRight,
    Nat.shiftRight_eq_div_pow]
  rfl

theorem tableSize_eq : tableSize count = 128 + 16 * (prdtlOf count).toNat := by
  rw [tableSize]
  bv_omega

theorem tableSize_le : tableSize count ≤ span := by
  have := (prdtlOf count).isLt
  rw [tableSize_eq, span]
  omega

/-- **Where `read` stores through `cmdtbl`**: all over the cleared table, and no further than that
or the first 256 bytes. -/
theorem adds_setupCommand (m : Mem) (clb : Word) (slot : ℕ) (startl starth count buf : Word) :
    Stores.Adds
    (Within (tableOf m clb slot) (max (tableSize count) 256))
    ⟨setHeader m (header clb slot) count, []⟩
    (setupCommand m clb slot startl starth count buf) := by
  rw [setupCommand_eq, tableStores]
  refine ((Stores.adds_memset _ _ 0 tableSize_le).mono fun x hx => ?_).trans
    (((Stores.adds_entry buf _).mono fun x hx => ?_).trans
      ((Stores.adds_setFis ..).mono fun x hx => ?_))
  · exact hx.mono (le_max_left _ _)
  · exact (Within.of_add (k := 144) hx (by decide)).mono (le_max_right _ _)
  · exact hx.mono ((show 16 ≤ 256 by decide).trans (le_max_right _ _))

theorem addresses_subset_setupCommand : addresses (tableOf m clb slot) (tableSize count) ⊆
    (setupCommand m clb slot startl starth count buf).stored := by
  rw [setupCommand_eq, tableStores]
  intro x hx
  exact (Stores.adds_setFis ..).kept ((Stores.adds_entry buf _).kept hx)

/-- Entry 0 is zero. -/
theorem setupCommand_entry_zero (h : 0 < (prdtlOf count).toNat)
    (hx : Within (tableOf m clb slot + 128) 16 x) :
    (setupCommand m clb slot startl starth count buf).mem x = 0 := by
  have hoff := (Within.add_iff (k := 128) (by decide)).mp hx
  have hfis : ¬ Within (tableOf m clb slot) 16 x := by
    rw [Within]
    omega
  have hentry : ¬ Within (tableOf m clb slot + 144) 16 x := fun he => by
    have := (Within.add_iff (k := 144) (by decide)).mp he
    omega
  have htable : Within (tableOf m clb slot) (tableSize count) x := by
    rw [Within, tableSize_eq]
    omega
  rw [setupCommand_eq, (Stores.adds_setFis ..).frame x hfis, tableStores,
    (Stores.adds_entry buf _).frame x hentry]
  exact memset_of_within tableSize_le htable

theorem setupCommand_region_zero (h : 0 < (prdtlOf count).toNat) :
    region (setupCommand m clb slot startl starth count buf).mem (tableOf m clb slot) 0 =
      (0, 1) := by
  have hdba : (setupCommand m clb slot startl starth count buf).mem.word
      (tableOf m clb slot + 128) = 0 :=
    word_eq_zero fun x hx => setupCommand_entry_zero h (hx.mono (by decide))
  have hdbc : (setupCommand m clb slot startl starth count buf).mem.word
      (tableOf m clb slot + 128 + 12) = 0 :=
    word_eq_zero fun x hx => setupCommand_entry_zero h (Within.of_add (k := 12) hx (by decide))
  exact Prod.ext hdba (congrArg (fun w : Word => (w.extractLsb' 0 22).toNat + 1) hdbc)

/-- Entry 1 starts at the buffer. -/
theorem setupCommand_entry_one :
    (setupCommand m clb slot startl starth count buf).mem.word (tableOf m clb slot + 144) =
      buf := by
  rw [setupCommand_eq, tableStores]
  refine (word_congr fun x hx => (Stores.adds_setFis ..).frame x ?_).trans
    (Stores.entry_dba buf _)
  have hge := ((Within.add_iff (k := 144) (by decide)).mp hx).1
  rw [Within]
  omega

end Command

/-! ## The transfer a command describes -/

/-- The regions are the `size` bytes from `start` on, in order, in pieces of at most 8K. -/
def Covers : Word → ℕ → List (Word × ℕ) → Prop
  | _, size, [] => size = 0
  | start, size, (a, n) :: rs =>
      a = start ∧ n ≤ 8 * 1024 ∧ n ≤ size ∧ Covers (start + BitVec.ofNat 32 n) (size - n) rs

/-- The command in the table at `tbl` with `prdtl` entries reads `count` sectors to `buf`. -/
structure Describes (m : Mem) (tbl : Word) (prdtl : ℕ) (buf count : Word) : Prop where
  regions : Covers buf (512 * count.toNat) ((List.range prdtl).map (region m tbl))
  fis : m.word16 (tbl + 12) = count.setWidth 16

section Describes

variable {m : Mem} {tbl buf count : Word} {prdtl : ℕ}

/-- **A zero entry in front of the buffer's entry** describes no transfer, whatever is behind. -/
theorem not_describes (hcount : 0 < count.toNat) (h0 : region m tbl 0 = (0, 1))
    (h1 : (region m tbl 1).1 = buf) : ¬ Describes m tbl prdtl buf count := by
  rintro ⟨hcovers, -⟩
  rcases prdtl with _ | _ | n
  · have : 512 * count.toNat = 0 := hcovers
    omega
  · rw [show (List.range (0 + 1)).map (region m tbl) = [region m tbl 0] from rfl, h0] at hcovers
    have : 512 * count.toNat - 1 = 0 := hcovers.2.2.2
    omega
  · rw [List.range_succ_eq_map, List.map_cons, List.range_succ_eq_map, List.map_cons, List.map_cons,
      h0] at hcovers
    have hnext : (region m tbl 1).1 = buf + 1 := hcovers.2.2.2.1
    rw [h1] at hnext
    bv_omega

end Describes

/-! ## A call of `read` -/

/-- From `s` to `t` nothing is stored, and only commands in slots in `P` are issued, with memory as
it is. -/
structure Leaves (P : ℕ → Prop) (s t : Hba) : Prop where
  port : t.port = s.port
  mem : t.mem = s.mem
  stored : t.stored = s.stored
  log : ∃ l, t.log = s.log ++ l ∧ ∀ k m, Access.issue k m ∈ l → P k ∧ m = s.mem

section Leaves

variable {P : ℕ → Prop} {s t u : Hba} {a : Access}

theorem Leaves.refl (s : Hba) : Leaves P s s := ⟨rfl, rfl, rfl, [], by simp, by simp⟩

theorem Leaves.trans (h : Leaves P s t) (h' : Leaves P t u) : Leaves P s u := by
  obtain ⟨l, hl, hP⟩ := h.log
  obtain ⟨l', hl', hP'⟩ := h'.log
  refine ⟨h'.port.trans h.port, h'.mem.trans h.mem, h'.stored.trans h.stored, l ++ l',
    by rw [hl', hl, List.append_assoc], fun k m hm => ?_⟩
  rcases List.mem_append.mp hm with hm | hm
  · exact hP k m hm
  · rw [← h.mem]
    exact hP' k m hm

instance : IsPreorder Hba (Leaves P) where
  refl := Leaves.refl
  trans _ _ _ := Leaves.trans

/-- An access that issues nothing. -/
theorem leaves_log (ha : ∀ k m, a ≠ .issue k m) :
    Leaves P s { s with log := s.log ++ [a] } :=
  ⟨rfl, rfl, rfl, [a], rfl, fun k m hm => absurd (List.mem_singleton.mp hm).symm (ha k m)⟩

/-- Issuing a command in `P`. -/
theorem leaves_issue {k : ℕ} (hk : P k) :
    Leaves P s { s with log := s.log ++ [.issue k s.mem] } := by
  refine ⟨rfl, rfl, rfl, _, rfl, fun k' m hm => ?_⟩
  obtain ⟨rfl, rfl⟩ := Access.issue.inj (List.mem_singleton.mp hm)
  exact ⟨hk, rfl⟩

end Leaves

namespace Drv

variable {hw : Controller} {P : ℕ → Prop} {s t : Hba} {slot fuel : ℕ}

theorem wp_readReg {r : Reg} {Q : Word → Hba → Prop} {E : Hang → Hba → Prop} :
    wp (readReg hw r) Q E s ↔ Q (hw s.log r) { s with log := s.log ++ [.read r] } := Iff.rfl

theorem keeps_readReg (r : Reg) : Keeps (Leaves P) (fun _ => True) (readReg hw r) :=
  fun _ => leaves_log (by simp)

theorem keeps_note {a : Access} (ha : ∀ k m, a ≠ .issue k m) :
    Keeps (Leaves P) (fun _ => True) (note a) :=
  Keeps.modify fun _ => leaves_log ha

theorem keeps_printk (text : String) : Keeps (Leaves P) (fun _ => True) (printk text) :=
  keeps_note (by simp)

theorem keeps_findCmdslot : Keeps (Leaves P) (fun _ => True) (findCmdslot hw) := by
  refine (keeps_readReg _).bind fun sact => (keeps_readReg _).bind fun ci => ?_
  cases scanSlots 33 0 (sact ||| ci) with
  | some i => exact Keeps.pure _
  | none => exact (keeps_printk _).bind fun _ => Keeps.pure _

theorem keeps_spin : ∀ n, Keeps (Leaves P) (fun _ => True) (spin hw n)
  | 0 => (keeps_readReg _).bind fun _ => Keeps.pure _
  | n + 1 => (keeps_readReg _).bind fun _ => Keeps.ite (Keeps.pure _) (keeps_spin n)

theorem keeps_complete : ∀ n, Keeps (Leaves P) (fun _ => True) (complete hw slot n)
  | 0 => Keeps.throw trivial
  | n + 1 => (keeps_readReg _).bind fun _ => Keeps.ite (Keeps.pure _)
      ((keeps_readReg _).bind fun _ => Keeps.ite
        ((keeps_printk _).bind fun _ => Keeps.pure _) (keeps_complete n))

/-- A failed call prints its message. -/
theorem keeps_failed (text : String) :
    Keeps (Leaves P) (fun _ => True) (do printk text; return false) :=
  (keeps_printk text).bind fun _ => Keeps.pure false

theorem keeps_awaitCommand : Keeps (Leaves P) (fun _ => True) (awaitCommand hw slot fuel) := by
  refine (keeps_complete _).bind fun done => Keeps.ite ?_ (Keeps.pure _)
  exact (keeps_readReg _).bind fun is => (keeps_failed _).ite (Keeps.pure _)

/-- From the first wait on, only the command in `slot` is issued. -/
theorem keeps_issueCommand :
    Keeps (Leaves (· = slot)) (fun _ => True) (issueCommand hw slot fuel) := by
  have hissue : Keeps (Leaves (· = slot)) (fun _ => True)
      (modify fun s => { s with log := s.log ++ [.issue slot s.mem] } : Drv PUnit) :=
    Keeps.modify fun _ => leaves_issue (P := (· = slot)) rfl
  exact (keeps_spin _).bind fun hung =>
    (keeps_failed _).ite (hissue.bind fun _ => keeps_awaitCommand)

/-- The slot `find_cmdslot` finds in a call of `read` that starts in `s`. -/
def chosenSlot (hw : Controller) (s : Hba) : Option ℕ :=
  let log := s.log ++ [.write .is 0xFFFFFFFF]
  scanSlots 33 0 (hw log .sact ||| hw (log ++ [.read .sact]) .ci)

/-- The loop of `find_cmdslot` stops at a bit of the 32 it looks at. -/
theorem scanSlots_lt : ∀ {n i k : ℕ} {slots : Word}, i ≤ 32 → slots.toNat < 2 ^ (32 - i) →
    scanSlots n i slots = some k → k < 32
  | 0, i, k, slots, _, _, h => by cases h
  | n + 1, i, k, slots, hi, hslots, h => by
      rw [scanSlots] at h
      by_cases hlt : i < slots.toNat
      · have hi' : i < 32 := by
          by_contra hge
          rw [show 32 - i = 0 by omega] at hslots
          omega
        rw [if_pos hlt] at h
        by_cases hbit : slots &&& 1 = 0
        · rw [if_pos hbit] at h
          exact Option.some.inj h ▸ hi'
        · rw [if_neg hbit] at h
          refine scanSlots_lt (i := i + 1) hi' ?_ h
          rw [show 32 - i = (32 - (i + 1)) + 1 by omega, Nat.pow_succ] at hslots
          rw [BitVec.toNat_ushiftRight, Nat.shiftRight_eq_div_pow, Nat.pow_one]
          omega
      · rw [if_neg hlt] at h
        cases h

theorem chosenSlot_lt (h : chosenSlot hw s = some slot) : slot < 32 :=
  scanSlots_lt (Nat.zero_le 32) (BitVec.isLt _) h

/-- The command `read` builds in a slot. -/
def command (s : Hba) (slot : ℕ) (startl starth count buf : Word) : Stores :=
  setupCommand s.mem s.port.clb slot startl starth count buf

/-- `find_cmdslot` returns. -/
theorem findCmdslot_returns (hw : Controller) (P : ℕ → Prop) (s : Hba) :
    ∃ t, findCmdslot hw s = .ok (scanSlots 33 0
      (hw s.log .sact ||| hw (s.log ++ [.read .sact]) .ci)) t ∧ Leaves P s t := by
  have hkeeps : wp (findCmdslot hw) (fun _ => Leaves P s) (fun _ t => True ∧ Leaves P s t) s :=
    keeps_findCmdslot s
  cases hscan : scanSlots 33 0 (hw s.log .sact ||| hw (s.log ++ [.read .sact]) .ci) with
  | some i =>
    have hrun : findCmdslot hw s = .ok (some i)
        { s with log := s.log ++ [.read .sact] ++ [.read .ci] } := by
      rw [findCmdslot, bind_of_ok (m := readReg hw .sact) rfl,
        bind_of_ok (m := readReg hw .ci) rfl, hscan]
      rfl
    exact ⟨_, hrun, (wp_of_ok hrun).mp hkeeps⟩
  | none =>
    have hrun : findCmdslot hw s = .ok none { s with log := s.log ++ [.read .sact] ++ [.read .ci] ++
        [.printk (str "Cannot find free command list entry\n")] } := by
      rw [findCmdslot, bind_of_ok (m := readReg hw .sact) rfl,
        bind_of_ok (m := readReg hw .ci) rfl, hscan]
      rfl
    exact ⟨_, hrun, (wp_of_ok hrun).mp hkeeps⟩

/-- `read` up to the choice of a slot. -/
theorem read_of_none (fuel : ℕ) (startl starth count buf : Word) (h : chosenSlot hw s = none) :
    ∃ t, Leaves (fun _ => False) s t ∧ read hw fuel startl starth count buf s = .ok false t := by
  have hnote : Leaves (fun _ => False) s { s with log := s.log ++ [.write .is 0xFFFFFFFF] } :=
    leaves_log (by simp)
  obtain ⟨t, hfind, ht⟩ := findCmdslot_returns hw (fun _ => False)
    { s with log := s.log ++ [.write .is 0xFFFFFFFF] }
  refine ⟨t, hnote.trans ht, ?_⟩
  rw [show scanSlots 33 0 _ = none from h] at hfind
  rw [read, bind_of_ok (m := note (.write .is 0xFFFFFFFF)) rfl, bind_of_ok hfind]
  rfl

/-- `read` in a slot: the state `t` is the one the command has been built in. -/
theorem read_of_some (fuel : ℕ) (startl starth count buf : Word) (h : chosenSlot hw s = some slot) :
    ∃ t, t.port = s.port ∧ t.mem = (command s slot startl starth count buf).mem ∧
      t.stored = s.stored ++ (command s slot startl starth count buf).stored ∧
      (∃ l, t.log = s.log ++ l ∧ ∀ k m, Access.issue k m ∉ l) ∧
      read hw fuel startl starth count buf s = issueCommand hw slot fuel t := by
  have hnote : Leaves (fun _ => False) s { s with log := s.log ++ [.write .is 0xFFFFFFFF] } :=
    leaves_log (by simp)
  obtain ⟨u, hfind, hu⟩ := findCmdslot_returns hw (fun _ => False)
    { s with log := s.log ++ [.write .is 0xFFFFFFFF] }
  have hbefore := hnote.trans hu
  obtain ⟨l, hl, hissue⟩ := hbefore.log
  rw [show scanSlots 33 0 _ = some slot from h] at hfind
  refine ⟨{ u with
    mem := (command u slot startl starth count buf).mem
    stored := u.stored ++ (command u slot startl starth count buf).stored }, hbefore.port, ?_, ?_,
    ⟨l, hl, fun k m hm => (hissue k m hm).1⟩, ?_⟩
  · simp only [command, hbefore.mem, hbefore.port]
  · simp only [command, hbefore.stored, hbefore.mem, hbefore.port]
  · rw [read, bind_of_ok (m := note (.write .is 0xFFFFFFFF)) rfl, bind_of_ok hfind]
    rfl

/-- What a call of `read` from `s` has done when it returns, or while it waits: nothing, if there
is no free slot; or built its command, and issued it or not. -/
def Reads (hw : Controller) (startl starth count buf : Word) (s t : Hba) : Prop :=
  match chosenSlot hw s with
  | none => Leaves (fun _ => False) s t
  | some slot =>
      let c := command s slot startl starth count buf
      ∃ u, u.port = s.port ∧ u.mem = c.mem ∧ u.stored = s.stored ++ c.stored ∧
        (∃ l, u.log = s.log ++ l ∧ ∀ k m, Access.issue k m ∉ l) ∧ Leaves (· = slot) u t

/-- **What `read` does**, whether it returns or not. -/
theorem reads_after (hw : Controller) (fuel : ℕ) (startl starth count buf : Word) (s : Hba) :
    Reads hw startl starth count buf s (after (read hw fuel startl starth count buf) s) := by
  rw [Reads]
  cases hslot : chosenSlot hw s with
  | none =>
    obtain ⟨t, ht, hrun⟩ := read_of_none fuel startl starth count buf hslot
    simpa only [after, hrun] using ht
  | some slot =>
    obtain ⟨u, hport, hmem, hstored, hlog, hrun⟩ :=
      read_of_some fuel startl starth count buf hslot
    refine ⟨u, hport, hmem, hstored, hlog, ?_⟩
    rw [after, hrun]
    exact wp_after.mp (wp_mono (keeps_issueCommand u) (fun _ _ ht => ht) fun _ _ ht => ht.2)

/-- The call of `read` from `s` issues the command in `slot`, the memory then being `m`. -/
def Issues (hw : Controller) (fuel : ℕ) (startl starth count buf : Word) (s : Hba) (slot : ℕ)
    (m : Mem) : Prop :=
  ∃ l, (after (read hw fuel startl starth count buf) s).log = s.log ++ l ∧ .issue slot m ∈ l

section Issues

variable {startl starth count buf : Word} {m : Mem}

/-- Only the command built is issued, in the slot it was built in; nothing is stored after it. -/
theorem leaves_of_issues (h : Issues hw fuel startl starth count buf s slot m) :
    ∃ u, m = (command s slot startl starth count buf).mem ∧ u.mem = m ∧
      Leaves (· = slot) u (after (read hw fuel startl starth count buf) s) := by
  obtain ⟨l, hl, hmem⟩ := h
  have hreads := reads_after hw fuel startl starth count buf s
  rw [Reads] at hreads
  cases hslot : chosenSlot hw s with
  | none =>
    simp only [hslot] at hreads
    obtain ⟨l', hl', hnone⟩ := hreads.log
    obtain rfl := List.append_cancel_left (hl.symm.trans hl')
    exact (hnone _ _ hmem).1.elim
  | some k =>
    simp only [hslot] at hreads
    obtain ⟨u, -, hmem', -, ⟨l₁, hl₁, hnone⟩, hleaves⟩ := hreads
    obtain ⟨l₂, hl₂, honly⟩ := hleaves.log
    rw [hl₁, List.append_assoc] at hl₂
    obtain rfl := List.append_cancel_left (hl.symm.trans hl₂)
    rcases List.mem_append.mp hmem with hm | hm
    · exact absurd hm (hnone _ _)
    · obtain ⟨rfl, rfl⟩ := honly _ _ hm
      exact ⟨u, hmem', rfl, hleaves⟩

theorem eq_command_of_issues (h : Issues hw fuel startl starth count buf s slot m) :
    m = (command s slot startl starth count buf).mem := by
  obtain ⟨u, hm, -, -⟩ := leaves_of_issues h
  exact hm

theorem mem_after_of_issues (h : Issues hw fuel startl starth count buf s slot m) :
    (after (read hw fuel startl starth count buf) s).mem = m := by
  obtain ⟨u, -, hm, hleaves⟩ := leaves_of_issues h
  exact hleaves.mem.trans hm

/-- The command built for up to 128 sectors does not describe them. -/
theorem not_describes_command (hpos : 1 ≤ count.toNat) (hle : count.toNat ≤ 128) :
    ¬ Describes (command s slot startl starth count buf).mem (tableOf s.mem s.port.clb slot)
      ((command s slot startl starth count buf).mem.word16 (header s.port.clb slot + 2)).toNat
      buf count := by
  have hprdtl : 0 < (prdtlOf count).toNat := by
    rw [prdtlOf_toNat]
    bv_omega
  exact not_describes hpos (setupCommand_region_zero hprdtl) setupCommand_entry_one

/-- An idle port gets its command. -/
theorem issueCommand_of_idle (hidle : ∀ log, hw log .tfd &&& 0x88 = 0) (slot fuel : ℕ)
    (s : Hba) :
    ∃ l, (after (issueCommand hw slot fuel) s).log = s.log ++ l ∧ .issue slot s.mem ∈ l := by
  have hspin : spin hw 1000000 s = .ok false { s with log := s.log ++ [.read .tfd] } := by
    rw [spin, bind_of_ok (m := readReg hw .tfd) rfl, if_pos (hidle _)]
    rfl
  suffices hissue : wp (issueCommand hw slot fuel)
      (fun _ t => ∃ l, t.log = s.log ++ l ∧ .issue slot s.mem ∈ l)
      (fun _ t => ∃ l, t.log = s.log ++ l ∧ .issue slot s.mem ∈ l) s from wp_after.mp hissue
  rw [issueCommand, wp_bind, wp_of_ok hspin, if_neg Bool.false_ne_true, wp_bind, wp_modify]
  have hrest : ∀ t, Leaves (fun _ => True) { s with
      log := s.log ++ [.read .tfd] ++ [.issue slot s.mem] } t →
      ∃ l, t.log = s.log ++ l ∧ .issue slot s.mem ∈ l := by
    intro t ht
    obtain ⟨l, hl, -⟩ := ht.log
    exact ⟨[.read .tfd, .issue slot s.mem] ++ l, by simpa using hl, by simp⟩
  exact wp_mono (keeps_awaitCommand _) (fun _ t ht => hrest t ht) fun _ t ht => hrest t ht.2

/-- **An idle port with a free slot gets a command.** -/
theorem issues_of_idle (hidle : ∀ log, hw log .tfd &&& 0x88 = 0)
    (hslot : chosenSlot hw s = some slot) :
    Issues hw fuel startl starth count buf s slot
      (command s slot startl starth count buf).mem := by
  obtain ⟨u, -, hmem, -, ⟨l, hl, -⟩, hrun⟩ :=
    read_of_some fuel startl starth count buf hslot
  obtain ⟨l', hl', hissue⟩ := issueCommand_of_idle hidle slot fuel u
  rw [hl, List.append_assoc] at hl'
  rw [hmem] at hissue
  refine ⟨l ++ l', ?_, List.mem_append_right l hissue⟩
  rw [after, hrun]
  exact hl'

/-- **No command that `read` issues describes its transfer.** -/
theorem never_described (hw : Controller) (fuel : ℕ) (startl starth count buf : Word) (s : Hba)
    (hpos : 1 ≤ count.toNat) (hle : count.toNat ≤ 128) (slot : ℕ) (m : Mem)
    (h : Issues hw fuel startl starth count buf s slot m) :
    ¬ Describes m (tableOf s.mem s.port.clb slot)
      (m.word16 (header s.port.clb slot + 2)).toNat buf count := by
  obtain rfl := eq_command_of_issues h
  exact not_describes_command hpos hle

/-- A port with slot 1 taken, and nothing to wait for. -/
def idlePort : Controller := fun _ r => if r = .ci then 2 else 0

/-- Its command list at 4M, with the command table of slot 0 behind it. -/
def idleHba : Hba :=
  ⟨⟨0x400000, 0, 0x408000, 0⟩, Mem.store (fun _ => 0) 0x400008 (bytes32 0x40A000), [], []⟩

theorem issues_idle (fuel : ℕ) (startl starth count buf : Word) :
    Issues idlePort fuel startl starth count buf idleHba 0
      (command idleHba 0 startl starth count buf).mem :=
  issues_of_idle (fun _ => by simp [idlePort]) (by decide)

/-- One sector, to a buffer at 5M. -/
theorem never_described_one_sector :
    ¬ Describes (command idleHba 0 0 0 1 0x500000).mem (tableOf idleHba.mem 0x400000 0)
      ((command idleHba 0 0 0 1 0x500000).mem.word16 (header 0x400000 0 + 2)).toNat
      0x500000 1 :=
  never_described idlePort 1 0 0 1 0x500000 idleHba (by decide) (by decide) 0 _
    (issues_idle 1 0 0 1 0x500000)

/-- The command for that sector goes out, and asks for one byte at address 0. -/
theorem not_read_describes :
    ¬ ∀ (hw : Controller) (fuel : ℕ) (startl starth count buf : Word) (s : Hba),
      1 ≤ count.toNat → count.toNat ≤ 128 → buf.toNat % 2 = 0 → ∀ (slot : ℕ) (m : Mem),
      Issues hw fuel startl starth count buf s slot m →
      Describes m (tableOf s.mem s.port.clb slot)
        (m.word16 (header s.port.clb slot + 2)).toNat buf count := by
  intro hall
  have hdescribes := hall idlePort 1 0 0 1 0x500000 idleHba (by decide) (by decide) (by decide) 0 _
    (issues_idle 1 0 0 1 0x500000)
  exact not_describes_command (by decide) (by decide) hdescribes

end Issues

end Drv

end HuskyKernel
