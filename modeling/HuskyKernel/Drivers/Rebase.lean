import HuskyKernel.Drivers.Command
import HuskyKernel.Logic.Steps

/-!
# Drivers/Rebase — where the AHCI structures lie

`port_rebase` gives each of 32 ports 1K of command list, 256 bytes of FIS area and 32 command
tables of 256 bytes, one for each slot.  A table of 256 bytes holds eight region entries; `read`
clears as many as its sector count asks for.  `isolated_iff`: on every run of the driver a call of
`read` stays inside its slot's table exactly if that is no more than eight.
-/

namespace HuskyKernel

open Mem Wp

/-! ## The layout -/

/-- `AHCI_BASE`. -/
def ahciBase : Word := 0x400000

/-- A port's command list. -/
def listBase (portno : Word) : Word := ahciBase + portno <<< 10

/-- A port's FIS area. -/
def fisBase (portno : Word) : Word := ahciBase + 32#32 <<< 10 + portno <<< 8

/-- The command table of a slot. -/
def tableBase (portno : Word) (slot : ℕ) : Word :=
  ahciBase + 40#32 <<< 10 + portno <<< 13 + BitVec.ofNat 32 slot <<< 8

/-! ## `port_rebase` -/

/-- `prdtl`, `ctba` and `ctbau` of a command header. -/
def headerFields (h ctba : Word) (m : Mem) : Mem :=
  ((m.store (h + 2) (bytes16 8)).store (h + 8) (bytes32 ctba)).store (h + 12) (bytes32 0)

/-- The loop body over the command headers. -/
def initHeader (clb portno : Word) (m : Mem) (i : ℕ) : Mem :=
  let m := headerFields (header clb i) (tableBase portno i) m
  m.memset (m.word (header clb i + 8)) 0 256

/-- `port_rebase` between stopping and starting the port. -/
def rebase (portno : Word) (s : Hba) : Hba :=
  let m := s.mem.memset (listBase portno) 0 1024
  let m := m.memset (fisBase portno) 0 256
  { s with
    port := ⟨listBase portno, 0, fisBase portno, 0⟩
    mem := (List.range 32).foldl (initHeader (listBase portno) portno) m }

namespace Drv

variable (hw : Controller)

/-- `port->cmd = f(port->cmd)`. -/
def updateCmd (f : Word → Word) : Drv Unit := do
  let cmd ← readReg hw .cmd
  note (.write .cmd (f cmd))

/-- The loop of `stop_cmd`, in at most `n` rounds. -/
def awaitStopped : ℕ → Drv Unit
  | 0 => throw .hang
  | n + 1 => do
      let cmd ← readReg hw .cmd
      if cmd &&& 0x4000 ≠ 0 then awaitStopped n
      else
        let cmd ← readReg hw .cmd
        if cmd &&& 0x8000 ≠ 0 then awaitStopped n else return ()

/-- `stop_cmd`. -/
def stopCmd (fuel : ℕ) : Drv Unit := do
  updateCmd hw (· &&& ~~~0x0001)
  updateCmd hw (· &&& ~~~0x0010)
  awaitStopped hw fuel

/-- The loop of `start_cmd`, in at most `n` rounds. -/
def awaitIdle : ℕ → Drv Unit
  | 0 => throw .hang
  | n + 1 => do
      let cmd ← readReg hw .cmd
      if cmd &&& 0x8000 ≠ 0 then awaitIdle n else return ()

/-- `start_cmd`. -/
def startCmd (fuel : ℕ) : Drv Unit := do
  awaitIdle hw fuel
  updateCmd hw (· ||| 0x0010)
  updateCmd hw (· ||| 0x0001)

/-- `port_rebase`, its waits bounded by `fuel` rounds. -/
def portRebase (fuel : ℕ) (portno : Word) : Drv Unit := do
  stopCmd hw fuel
  modify (rebase portno)
  startCmd hw fuel

end Drv

/-! ## Areas

No area wraps, and all of them are apart: the lists end where the FIS areas begin, and those end
where the tables begin. -/

section Areas

variable {p q : Word} {slot k : ℕ} {x : Word}

theorem toNat_listBase (hp : p.toNat < 32) : (listBase p).toNat = 0x400000 + 1024 * p.toNat := by
  rw [listBase, ahciBase]
  bv_omega

theorem toNat_fisBase (hp : p.toNat < 32) : (fisBase p).toNat = 0x408000 + 256 * p.toNat := by
  rw [fisBase, ahciBase]
  bv_omega

theorem toNat_tableBase (hp : p.toNat < 32) (hs : slot < 32) :
    (tableBase p slot).toNat = 0x40A000 + 8192 * p.toNat + 256 * slot := by
  rw [tableBase, ahciBase]
  bv_omega

theorem toNat_header (hp : p.toNat < 32) (hs : slot < 32) :
    (header (listBase p) slot).toNat = 0x400000 + 1024 * p.toNat + 32 * slot := by
  have := toNat_listBase hp
  rw [header]
  bv_omega

theorem within_list (hp : p.toNat < 32) : Within (listBase p) 1024 x ↔
    0x400000 + 1024 * p.toNat ≤ x.toNat ∧ x.toNat < 0x400000 + 1024 * p.toNat + 1024 := by
  rw [Within.iff (by rw [toNat_listBase hp]; omega), toNat_listBase hp]

theorem within_fis (hp : p.toNat < 32) : Within (fisBase p) 256 x ↔
    0x408000 + 256 * p.toNat ≤ x.toNat ∧ x.toNat < 0x408000 + 256 * p.toNat + 256 := by
  rw [Within.iff (by rw [toNat_fisBase hp]; omega), toNat_fisBase hp]

/-- The first `n` bytes from a slot's table on, `n` up to a megabyte and a bit. -/
theorem within_table {n : ℕ} (hp : p.toNat < 32) (hs : slot < 32) (hn : n ≤ 0x200000) :
    Within (tableBase p slot) n x ↔ 0x40A000 + 8192 * p.toNat + 256 * slot ≤ x.toNat ∧
      x.toNat < 0x40A000 + 8192 * p.toNat + 256 * slot + n := by
  rw [Within.iff (by rw [toNat_tableBase hp hs]; omega), toNat_tableBase hp hs]

theorem within_header (hp : p.toNat < 32) (hs : slot < 32) :
    Within (header (listBase p) slot) 32 x ↔
      0x400000 + 1024 * p.toNat + 32 * slot ≤ x.toNat ∧
        x.toNat < 0x400000 + 1024 * p.toNat + 32 * slot + 32 := by
  rw [Within.iff (by rw [toNat_header hp hs]; omega), toNat_header hp hs]

/-- A header's `ctba` is inside it. -/
theorem within_header_of_ctba {h : Word} (hx : Within (h + 8) 4 x) : Within h 32 x :=
  Within.of_add (k := 8) hx (by decide)

end Areas

/-! ## What `port_rebase` leaves -/

section Rebase

variable {p q : Word} {m : Mem} {s : Hba} {i j n : ℕ} {x : Word}

theorem headerFields_ctba (h ctba : Word) : (headerFields h ctba m).word (h + 8) = ctba := by
  refine (word_congr fun x hx => store_of_not_within (length_bytes32_le _) fun h12 => ?_).trans
    (word_store (m := m.store (h + 2) (bytes16 8)) ctba)
  have hlt := ((Within.add_iff (k := 8) (by decide)).mp hx).2
  have hge := ((Within.add_iff (k := 12) (by decide)).mp h12).1
  omega

theorem headerFields_frame (h ctba : Word) (hx : ¬ Within h 32 x) :
    headerFields h ctba m x = m x := by
  have h2 : ¬ Within (h + 2) 2 x := fun h2 => hx (Within.of_add (k := 2) h2 (by decide))
  have h8 : ¬ Within (h + 8) 4 x := fun h8 => hx (Within.of_add (k := 8) h8 (by decide))
  have h12 : ¬ Within (h + 12) 4 x := fun h12 => hx (Within.of_add (k := 12) h12 (by decide))
  rw [headerFields, store_of_not_within (length_bytes32_le _) h12,
    store_of_not_within (length_bytes32_le _) h8, store_of_not_within (length_bytes16_le _) h2]

theorem initHeader_frame (hh : ¬ Within (header (listBase p) i) 32 x)
    (ht : ¬ Within (tableBase p i) 256 x) : initHeader (listBase p) p m i x = m x := by
  rw [initHeader, headerFields_ctba, memset_of_not_within (by decide) ht,
    headerFields_frame _ _ hh]

theorem initHeader_ctba (hp : p.toNat < 32) (hi : i < 32) :
    tableOf (initHeader (listBase p) p m i) (listBase p) i = tableBase p i := by
  rw [tableOf, initHeader, headerFields_ctba]
  refine (word_congr fun x hx => memset_of_not_within (by decide) ?_).trans
    (headerFields_ctba (m := m) _ _)
  have hheader := (within_header hp hi).mp (within_header_of_ctba hx)
  rw [within_table hp hi (by decide)]
  omega

/-- The loop over the headers of port `p`, after `n` rounds. -/
theorem headers_loop (hp : p.toNat < 32) (m : Mem) : ∀ n ≤ 32,
    (∀ j < n, tableOf ((List.range n).foldl (initHeader (listBase p) p) m) (listBase p) j =
      tableBase p j) ∧
    ∀ x, (x.toNat < 0x400000 + 1024 * p.toNat ∨ 0x400000 + 1024 * p.toNat + 1024 ≤ x.toNat) →
      (x.toNat < 0x40A000 + 8192 * p.toNat ∨ 0x40A000 + 8192 * p.toNat + 8192 ≤ x.toNat) →
      (List.range n).foldl (initHeader (listBase p) p) m x = m x
  | 0, _ => ⟨fun j hj => absurd hj (Nat.not_lt_zero j), fun _ _ _ => rfl⟩
  | n + 1, hn => by
      obtain ⟨hctba, hframe⟩ := headers_loop hp m n (by omega)
      rw [List.range_succ, List.foldl_append, List.foldl_cons, List.foldl_nil]
      refine ⟨fun j hj => ?_, fun x hlist htable => ?_⟩
      · rcases Nat.lt_succ_iff_lt_or_eq.mp hj with hj | rfl
        · rw [← hctba j hj]
          refine word_congr fun x hx => ?_
          have hheader := (within_header hp (by omega)).mp (within_header_of_ctba hx)
          refine initHeader_frame ?_ ?_
          · rw [within_header hp (by omega)]
            omega
          · rw [within_table hp (by omega) (by decide)]
            omega
        · exact initHeader_ctba hp (by omega)
      · rw [initHeader_frame ?_ ?_, hframe x hlist htable]
        · rw [within_header hp (by omega)]
          omega
        · rw [within_table hp (by omega) (by decide)]
          omega

theorem rebase_port (p : Word) (s : Hba) :
    (rebase p s).port = ⟨listBase p, 0, fisBase p, 0⟩ := by
  rw [rebase]

theorem rebase_mem (p : Word) (s : Hba) : (rebase p s).mem =
    (List.range 32).foldl (initHeader (listBase p) p)
      ((s.mem.memset (listBase p) 0 1024).memset (fisBase p) 0 256) := by
  rw [rebase]

/-- **`port_rebase` gives the port its own list and tables.** -/
theorem rebase_ctba (hp : p.toNat < 32) (hj : j < 32) :
    tableOf (rebase p s).mem (listBase p) j = tableBase p j := by
  rw [rebase_mem]
  exact (headers_loop hp _ 32 le_rfl).1 j hj

/-- **…and leaves the headers of every other port alone.** -/
theorem rebase_frame (hp : p.toNat < 32) (hq : q.toNat < 32) (hpq : p ≠ q) (hj : j < 32)
    (hx : Within (header (listBase q) j) 32 x) : (rebase p s).mem x = s.mem x := by
  have hne : p.toNat ≠ q.toNat := fun h => hpq (BitVec.eq_of_toNat_eq h)
  rw [within_header hq hj] at hx
  rw [rebase_mem, (headers_loop hp _ 32 le_rfl).2 x (by omega) (by omega),
    memset_of_not_within (by decide), memset_of_not_within (by decide)]
  · rw [within_list hp]
    omega
  · rw [within_fis hp]
    omega

end Rebase

namespace Drv

variable {hw : Controller} {P : ℕ → Prop} {s t : Hba} {fuel : ℕ} {p : Word}

theorem keeps_updateCmd (f : Word → Word) :
    Keeps (Leaves P) (fun _ => True) (updateCmd hw f) :=
  (keeps_readReg _).bind fun _ => keeps_note (by simp)

theorem keeps_awaitStopped : ∀ n, Keeps (Leaves P) (fun _ => True) (awaitStopped hw n)
  | 0 => Keeps.throw trivial
  | n + 1 => (keeps_readReg _).bind fun _ => Keeps.ite (keeps_awaitStopped n)
      ((keeps_readReg _).bind fun _ => Keeps.ite (keeps_awaitStopped n) (Keeps.pure _))

theorem keeps_stopCmd : Keeps (Leaves P) (fun _ => True) (stopCmd hw fuel) :=
  (keeps_updateCmd _).bind fun _ => (keeps_updateCmd _).bind fun _ => keeps_awaitStopped fuel

theorem keeps_awaitIdle : ∀ n, Keeps (Leaves P) (fun _ => True) (awaitIdle hw n)
  | 0 => Keeps.throw trivial
  | n + 1 => (keeps_readReg _).bind fun _ => Keeps.ite (keeps_awaitIdle n) (Keeps.pure _)

theorem keeps_startCmd : Keeps (Leaves P) (fun _ => True) (startCmd hw fuel) :=
  (keeps_awaitIdle _).bind fun _ => (keeps_updateCmd _).bind fun _ => keeps_updateCmd _

/-- **A finished `port_rebase`** has done what `rebase` does. -/
theorem portRebase_ok (h : portRebase hw fuel p s = .ok () t) :
    t.port.clb = listBase p ∧ t.mem = (rebase p s).mem := by
  have hspec : wp (portRebase hw fuel p)
      (fun _ t => t.port.clb = listBase p ∧ t.mem = (rebase p s).mem) (fun _ _ => True) s := by
    rw [portRebase, wp_bind]
    refine wp_mono (keeps_stopCmd (P := fun _ => False) s) (fun _ u hu => ?_) fun _ _ _ => trivial
    rw [wp_bind, wp_modify]
    refine wp_mono (keeps_startCmd (P := fun _ => False) _) (fun _ v hv => ?_)
      fun _ _ _ => trivial
    refine ⟨by rw [hv.port, rebase_port], hv.mem.trans ?_⟩
    rw [rebase_mem, rebase_mem, hu.mem]
  exact (wp_of_ok h).mp hspec

end Drv

/-! ## The driver over time -/

/-- The ports, memory, and which ports `port_rebase` has set up. -/
structure Ahci where
  ports : Word → HbaPort
  mem : Mem
  ready : Word → Prop

namespace Ahci

/-- What a function of the driver is called on, for port `p`. -/
def view (c : Ahci) (p : Word) (log : List Access) : Hba := ⟨c.ports p, c.mem, [], log⟩

/-- What happens to the structures: a finished `port_rebase`; a call of `read` on a port that has
been set up, returned or not; and anything else that leaves the table addresses in the headers of
these ports alone. -/
inductive Step : Ahci → Ahci → Prop
  | rebase {c : Ahci} {p : Word} (hp : p.toNat < 32) {hw : Controller} {fuel : ℕ}
      {log : List Access} {t : Hba} (hrun : Drv.portRebase hw fuel p (c.view p log) = .ok () t) :
      Step c ⟨Function.update c.ports p t.port, t.mem, fun q => q = p ∨ c.ready q⟩
  | read {c : Ahci} {p : Word} (hp : p.toNat < 32) (hready : c.ready p) (hw : Controller)
      (fuel : ℕ) (log : List Access) (startl starth count buf : Word) :
      Step c { c with
        ports := Function.update c.ports p
          (after (Drv.read hw fuel startl starth count buf) (c.view p log)).port
        mem := (after (Drv.read hw fuel startl starth count buf) (c.view p log)).mem }
  | other {c : Ahci} {m : Mem} (hm : ∀ p, c.ready p → ∀ j < 32,
      tableOf m (c.ports p).clb j = tableOf c.mem (c.ports p).clb j) : Step c { c with mem := m }

/-- Every port that has been set up is a port, and has its own list and tables. -/
def LaidOut (c : Ahci) : Prop :=
  ∀ p, c.ready p → p.toNat < 32 ∧ (c.ports p).clb = listBase p ∧
    ∀ j < 32, tableOf c.mem (listBase p) j = tableBase p j

variable {c c' : Ahci} {p q : Word} {hw : Controller} {log : List Access} {slot j fuel : ℕ}
  {startl starth count buf x : Word}

/-- The command of a port with its own tables, and the memory outside what it stores to. -/
theorem command_frame (hclb : (c.ports p).clb = listBase p)
    (htable : tableOf c.mem (listBase p) slot = tableBase p slot)
    (hheader : ¬ Within (header (listBase p) slot) 4 x)
    (hx : ¬ Within (tableBase p slot) (max (tableSize count) 256) x) :
    (Drv.command (c.view p log) slot startl starth count buf).mem x = c.mem x := by
  have hadds := adds_setupCommand c.mem (listBase p) slot startl starth count buf
  rw [htable] at hadds
  simp only [Drv.command, view, hclb]
  exact (hadds.frame x hx).trans (setHeader_frame _ hheader)

theorem tableSize_le_two_pow (count : Word) : max (tableSize count) 256 ≤ 0x200000 := by
  have := (prdtlOf count).isLt
  rw [tableSize_eq]
  omega

/-- Building a command leaves every `ctba` alone: the tables lie behind all lists, so what is
cleared behind a table is not a list. -/
theorem command_ctba (hp : p.toNat < 32) (hs : slot < 32) (hq : q.toNat < 32) (hj : j < 32)
    (hclb : (c.ports p).clb = listBase p)
    (htable : tableOf c.mem (listBase p) slot = tableBase p slot) :
    tableOf (Drv.command (c.view p log) slot startl starth count buf).mem (listBase q) j =
      tableOf c.mem (listBase q) j := by
  refine word_congr fun x hx => command_frame hclb htable ?_ ?_
  · have hctba := (Within.add_iff (k := 8) (by decide)).mp hx
    have hqj := (within_header hq hj).mp (within_header_of_ctba hx)
    have hself := toNat_header hq hj
    intro hhead
    have hps := (within_header hp hs).mp (hhead.mono (by decide))
    have hself' := toNat_header hp hs
    rw [Within] at hhead
    bv_omega
  · have hqj := (within_header hq hj).mp (within_header_of_ctba hx)
    rw [within_table hp hs (tableSize_le_two_pow count)]
    omega

/-- A call of `read` on a port with its own tables leaves the port and every `ctba` alone. -/
theorem reads_ctba {t : Hba} (hp : p.toNat < 32) (hclb : (c.ports p).clb = listBase p)
    (htables : ∀ j < 32, tableOf c.mem (listBase p) j = tableBase p j)
    (hreads : Drv.Reads hw startl starth count buf (c.view p log) t) :
    t.port = c.ports p ∧ ∀ q : Word, q.toNat < 32 → ∀ j < 32,
      tableOf t.mem (listBase q) j = tableOf c.mem (listBase q) j := by
  rw [Drv.Reads] at hreads
  cases hslot : Drv.chosenSlot hw (c.view p log) with
  | none =>
    simp only [hslot] at hreads
    exact ⟨hreads.port, fun q hq j hj => by rw [hreads.mem]; rfl⟩
  | some slot =>
    simp only [hslot] at hreads
    obtain ⟨u, hport, hmem, -, -, hleaves⟩ := hreads
    have hs := Drv.chosenSlot_lt hslot
    refine ⟨hleaves.port.trans hport, fun q hq j hj => ?_⟩
    rw [hleaves.mem, hmem]
    exact command_ctba hp hs hq hj hclb (htables slot hs)

/-- **Every step keeps the layout.** -/
theorem LaidOut.step (h : c.LaidOut) (hstep : Step c c') : c'.LaidOut := by
  cases hstep with
  | @rebase p hp hw fuel log t hrun =>
    obtain ⟨hclb, hmem⟩ := Drv.portRebase_ok hrun
    intro q hq
    change q.toNat < 32 ∧ (Function.update c.ports p t.port q).clb = listBase q ∧
      ∀ j < 32, tableOf t.mem (listBase q) j = tableBase q j
    rw [hmem]
    by_cases hqp : q = p
    · rw [hqp, Function.update_self]
      exact ⟨hp, hclb, fun j hj => rebase_ctba hp hj⟩
    · obtain ⟨hq32, hclbq, htables⟩ := h q (hq.resolve_left hqp)
      rw [Function.update_of_ne hqp]
      refine ⟨hq32, hclbq, fun j hj => (word_congr fun x hx => ?_).trans (htables j hj)⟩
      exact rebase_frame hp hq32 (Ne.symm hqp) hj (within_header_of_ctba hx)
  | @read p hp hready hw fuel log startl starth count buf =>
    obtain ⟨-, hclb, htables⟩ := h p hready
    have hreads := Drv.reads_after hw fuel startl starth count buf
      (c.view p log)
    generalize after (Drv.read hw fuel startl starth count buf) (c.view p log) = t at hreads ⊢
    obtain ⟨hport, hkept⟩ := reads_ctba hp hclb htables hreads
    intro q hq
    change q.toNat < 32 ∧ (Function.update c.ports p t.port q).clb = listBase q ∧
      ∀ j < 32, tableOf t.mem (listBase q) j = tableBase q j
    obtain ⟨hq32, hclbq, htablesq⟩ := h q hq
    rw [hport, Function.update_eq_self]
    exact ⟨hq32, hclbq, fun j hj => (hkept q hq32 j hj).trans (htablesq j hj)⟩
  | other hm =>
    intro p hp
    obtain ⟨hp32, hclb, htables⟩ := h p hp
    refine ⟨hp32, hclb, fun j hj => ?_⟩
    rw [← htables j hj, ← hclb]
    exact hm p hp j hj

/-! ## Staying inside the slot -/

/-- An address of a FIS area, or of the header or table of a slot other than slot `slot` of port
`p`. -/
def Foreign (p : Word) (slot : ℕ) (x : Word) : Prop :=
  ∃ q : Word, q.toNat < 32 ∧ (Within (fisBase q) 256 x ∨ ∃ j < 32, (q, j) ≠ (p, slot) ∧
    (Within (header (listBase q) j) 32 x ∨ Within (tableBase q j) 256 x))

/-- A call of `read` for a slot that starts in `s` and has got to `t` has stored to its own table
only, and the structures of no other slot or port have changed. -/
structure Isolated (p : Word) (slot : ℕ) (s t : Hba) : Prop where
  inside : ∀ x ∈ t.stored, Within (tableBase p slot) 256 x
  others : ∀ x, Foreign p slot x → t.mem x = s.mem x

/-- The structures of another slot are neither the slot's header nor its table. -/
theorem Foreign.not_own (hp : p.toNat < 32) (hs : slot < 32) (h : Foreign p slot x) :
    ¬ Within (header (listBase p) slot) 4 x ∧ ¬ Within (tableBase p slot) 256 x := by
  rw [within_table hp hs (by decide)]
  obtain ⟨q, hq, hfis | ⟨j, hj, hne, hx⟩⟩ := h
  · rw [within_fis hq] at hfis
    refine ⟨fun hhead => ?_, by omega⟩
    have hown := (within_header hp hs).mp (hhead.mono (by decide))
    omega
  · have hne' : q.toNat ≠ p.toNat ∨ j ≠ slot := by
      by_contra hcon
      rw [not_or, not_not, not_not] at hcon
      exact hne (Prod.ext (BitVec.eq_of_toNat_eq hcon.1) hcon.2)
    rw [within_header hq hj, within_table hq hj (by decide)] at hx
    refine ⟨fun hhead => ?_, by omega⟩
    have hown := (within_header hp hs).mp (hhead.mono (by decide))
    omega

/-- A command clears more than its slot's table exactly if the table is too small for it. -/
theorem isolated_command_iff (hp : p.toNat < 32) (hs : slot < 32)
    (hclb : (c.ports p).clb = listBase p)
    (htable : tableOf c.mem (listBase p) slot = tableBase p slot) :
    ((∀ x ∈ (Drv.command (c.view p log) slot startl starth count buf).stored,
        Within (tableBase p slot) 256 x) ∧ ∀ x, Foreign p slot x →
          (Drv.command (c.view p log) slot startl starth count buf).mem x = c.mem x) ↔
      tableSize count ≤ 256 := by
  constructor
  · rintro ⟨hinside, -⟩
    by_contra hlarge
    have hmem : tableBase p slot + BitVec.ofNat 32 256 ∈
        (Drv.command (c.view p log) slot startl starth count buf).stored := by
      simp only [Drv.command, view, hclb]
      refine addresses_subset_setupCommand (Stores.mem_addresses.mpr ?_)
      rw [htable]
      exact Within.add (not_le.mp hlarge)
    have hout := hinside _ hmem
    rw [Within, add_sub_cancel_left] at hout
    exact absurd hout (by decide)
  · intro hsmall
    have hmax : max (tableSize count) 256 = 256 := max_eq_right hsmall
    refine ⟨fun x hx => ?_, fun x hx => ?_⟩
    · have hadds := adds_setupCommand c.mem (listBase p) slot startl starth count buf
      rw [htable, hmax] at hadds
      simp only [Drv.command, view, hclb] at hx
      exact (hadds.stored x hx).resolve_left List.not_mem_nil
    · obtain ⟨hheader, htab⟩ := hx.not_own hp hs
      exact command_frame hclb htable hheader (by rwa [hmax])

/-- The sector counts whose command fits a table of 256 bytes. -/
theorem tableSize_le_iff (count : Word) : tableSize count ≤ 256 ↔
    (count - 1).toNat % 2 ^ 20 < 128 ∨ 2 ^ 20 - 16 ≤ (count - 1).toNat % 2 ^ 20 := by
  rw [tableSize_eq, prdtlOf_toNat]
  omega

theorem laidOut_run {c₀ : Ahci} {l : List (Ahci × Ahci)} (hboot : ∀ p, ¬ c₀.ready p)
    (hrun : Steps Step c₀ l c) : c.LaidOut :=
  hrun.keeps (fun _ _ hstep h => h.step hstep) fun p hp => absurd hp (hboot p)

/-- With the layout in place, it is the sector count that decides. -/
theorem LaidOut.isolated_iff (h : c.LaidOut) (hready : c.ready p) (fuel : ℕ)
    (startl starth count buf : Word) (hslot : Drv.chosenSlot hw (c.view p log) = some slot) :
    Isolated p slot (c.view p log)
        (after (Drv.read hw fuel startl starth count buf) (c.view p log)) ↔
      (count - 1).toNat % 2 ^ 20 < 128 ∨ 2 ^ 20 - 16 ≤ (count - 1).toNat % 2 ^ 20 := by
  obtain ⟨hp, hclb, htables⟩ := h p hready
  have hs := Drv.chosenSlot_lt hslot
  have hreads := Drv.reads_after hw fuel startl starth count buf (c.view p log)
  rw [Drv.Reads] at hreads
  simp only [hslot] at hreads
  obtain ⟨u, -, hmem, hstored, -, hleaves⟩ := hreads
  have hmem' := hleaves.mem.trans hmem
  have hstored' := (hleaves.stored.trans hstored).trans (List.nil_append _)
  rw [← tableSize_le_iff, ← isolated_command_iff hp hs hclb (htables slot hs)]
  constructor
  · rintro ⟨hinside, hothers⟩
    exact ⟨hstored' ▸ hinside, fun x hx => (congrFun hmem' x).symm.trans (hothers x hx)⟩
  · rintro ⟨hinside, hothers⟩
    exact ⟨hstored' ▸ hinside, fun x hx => (congrFun hmem' x).trans (hothers x hx)⟩

/-- **A call of `read` stays inside its slot exactly for the counts that fit**: on every run of the
driver, for every port that has been set up and whichever slot is free. -/
theorem read_isolated_iff {c₀ c : Ahci} {l : List (Ahci × Ahci)} (hboot : ∀ p, ¬ c₀.ready p)
    (hrun : Steps Step c₀ l c) {p : Word} (hready : c.ready p) (hw : Controller)
    (log : List Access) (fuel : ℕ) (startl starth count buf : Word) {slot : ℕ}
    (hslot : Drv.chosenSlot hw (c.view p log) = some slot) :
    Isolated p slot (c.view p log)
        (after (Drv.read hw fuel startl starth count buf) (c.view p log)) ↔
      (count - 1).toNat % 2 ^ 20 < 128 ∨ 2 ^ 20 - 16 ≤ (count - 1).toNat % 2 ^ 20 :=
  (laidOut_run hboot hrun).isolated_iff hready fuel startl starth count buf hslot

/-! ## One port, set up -/

/-- Nothing set up yet. -/
def boot : Ahci := ⟨fun _ => ⟨0, 0, 0, 0⟩, fun _ => 0, fun _ => False⟩

/-- Setting up an idle port ends. -/
theorem portRebase_idlePort (p : Word) (s : Hba) :
    ∃ t, Drv.portRebase Drv.idlePort 1 p s = .ok () t := by
  have hzero : ∀ v : Word, ¬ ((0 : Word) &&& v ≠ 0) := fun v => not_not.mpr BitVec.zero_and
  have hreturns : wp (Drv.portRebase Drv.idlePort 1 p) (fun _ _ => True) (fun _ _ => False) s := by
    simp only [Drv.portRebase, Drv.stopCmd, Drv.updateCmd, Drv.awaitStopped, Drv.startCmd,
      Drv.awaitIdle, Drv.note, wp_bind, wp_modify, Drv.wp_readReg, Drv.idlePort, if_false,
      reduceCtorEq, hzero, wp_pure]
  obtain ⟨_, t, hrun, _⟩ := wp_returns.mp hreturns
  exact ⟨t, hrun⟩

/-- A run that sets up port 0. -/
theorem exists_rebased : ∃ c : Ahci, (∃ l, Steps Step boot l c) ∧ c.ready 0 := by
  obtain ⟨t, hrun⟩ := portRebase_idlePort 0 (boot.view 0 [])
  exact ⟨_, ⟨_, .cons (Step.rebase (by decide) hrun) (.nil _)⟩, Or.inl rfl⟩

theorem chosenSlot_idlePort (c : Ahci) (p : Word) :
    Drv.chosenSlot Drv.idlePort (c.view p []) = some 0 := by
  simp only [Drv.chosenSlot, Drv.idlePort]
  decide

/-- 128 sectors stay inside the table of slot 0. -/
theorem read_isolated_128 : ∃ c : Ahci, Isolated 0 0 (c.view 0 [])
    (after (Drv.read Drv.idlePort 1 0 0 128 0x500000) (c.view 0 [])) := by
  obtain ⟨c, ⟨l, hrun⟩, hready⟩ := exists_rebased
  exact ⟨c, (read_isolated_iff (fun p => id) hrun hready Drv.idlePort [] 1 0 0 128 0x500000
    (chosenSlot_idlePort c 0)).mpr (Or.inl (by decide))⟩

/-- 129 sectors do not: the first entry too many is in the table of slot 1. -/
theorem not_read_isolated :
    ¬ ∀ (c₀ c : Ahci) (l : List (Ahci × Ahci)), (∀ p, ¬ c₀.ready p) → Steps Step c₀ l c →
      ∀ (p : Word), c.ready p → ∀ (hw : Controller) (log : List Access) (fuel : ℕ)
        (startl starth count buf : Word) (slot : ℕ),
      Drv.chosenSlot hw (c.view p log) = some slot → 0 < count.toNat →
      Isolated p slot (c.view p log)
        (after (Drv.read hw fuel startl starth count buf) (c.view p log)) := by
  intro hall
  obtain ⟨c, ⟨l, hrun⟩, hready⟩ := exists_rebased
  have hisolated := hall boot c l (fun p => id) hrun 0 hready Drv.idlePort [] 1 0 0 129 0x500000 0
    (chosenSlot_idlePort c 0) (by decide)
  have hcount := ((laidOut_run (fun p => id) hrun).isolated_iff hready 1 0 0 129 0x500000
    (chosenSlot_idlePort c 0)).mp hisolated
  exact absurd hcount (by decide)

end Ahci

end HuskyKernel
