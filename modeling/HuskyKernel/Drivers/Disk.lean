import HuskyKernel.Logic.Wp
import HuskyKernel.System.Words

/-!
# Drivers/Disk — the AHCI driver

A port answers for its status registers by what has been done to it before (`Controller`); the
command list and FIS base registers read back as written.  Everything else the driver deals in lies
in memory: the command headers, and for each slot a command table with a FIS in front and region
entries from `0x80` on.

`read` is split where its text is: choosing a slot, building the command (`setupCommand`, a function
of memory), waiting, issuing, waiting again.  Stores through `cmdtbl` are recorded (`stored`), and
an issued command is recorded with the memory the controller finds then.
-/

namespace HuskyKernel

open Mem

/-! ## The device type -/

/-- `AHCI_DEV_NULL` and the other device types. -/
inductive AhciDev where
  | null
  | sata
  | semb
  | pm
  | satapi
deriving DecidableEq, Repr

/-- `check_type`, on the registers behind the pointer `port`. -/
def checkType (m : Mem) (port : Word) : AhciDev :=
  let ssts := m.word (port + 0x28)
  let ipm := ssts >>> 8 &&& 0x0F
  let det := ssts &&& 0x0F
  if det ≠ 3 then .null
  else if ipm ≠ 1 then .null
  else
    let sig := m.word (port + 0x24)
    if sig = 0xEB140101#32 then .satapi
    else if sig = 0xC33C0101#32 then .semb
    else if sig = 0x96690101#32 then .pm
    else .sata

/-! ## The machine -/

/-- The registers of a port that the hardware answers for. -/
inductive Reg where
  | is
  | cmd
  | tfd
  | sact
  | ci
deriving DecidableEq, Repr

/-- What the driver does.  `issue slot m` is the write of `1 << slot` to `ci`, with the memory the
controller then reads its command from. -/
inductive Access where
  | read (r : Reg)
  | write (r : Reg) (v : Word)
  | issue (slot : ℕ) (m : Mem)
  | printk (format : List Byte)

/-- How a port answers the next read of a register. -/
abbrev Controller := List Access → Reg → Word

/-- The registers of a port that hold what the driver put there. -/
structure HbaPort where
  clb : Word
  clbu : Word
  fb : Word
  fbu : Word
deriving DecidableEq, Repr

/-- A port, memory, the addresses stored to through `cmdtbl`, and what has been done so far. -/
structure Hba where
  port : HbaPort
  mem : Mem
  stored : List Word
  log : List Access

/-- A wait loop that does not end. -/
inductive Hang where
  | hang
deriving DecidableEq, Repr

/-- A function of the driver: it returns, or it waits for ever. -/
abbrev Drv := EStateM Hang Hba

namespace Drv

variable (hw : Controller)

/-- Read a register. -/
def readReg (r : Reg) : Drv Word := fun s =>
  .ok (hw s.log r) { s with log := s.log ++ [.read r] }

/-- Note what is done. -/
def note (a : Access) : Drv Unit := modify fun s => { s with log := s.log ++ [a] }

/-- `printk`. -/
def printk (text : String) : Drv Unit := note (.printk (str text))

end Drv

/-! ## Building a command -/

/-- The `n` addresses from `a` on. -/
def addresses (a : Word) (n : ℕ) : List Word := (List.range n).map fun k => a + BitVec.ofNat 32 k

/-- Memory under construction, and the addresses stored to. -/
structure Stores where
  mem : Mem
  stored : List Word

namespace Stores

/-- Store `bs` at `a`. -/
def put (s : Stores) (a : Word) (bs : List Byte) : Stores :=
  ⟨s.mem.store a bs, s.stored ++ addresses a bs.length⟩

/-- Assign bytes at their offsets from `a`, one after another. -/
def putBytes (s : Stores) (a : Word) (l : List (ℕ × Byte)) : Stores :=
  l.foldl (fun s p => s.put (a + BitVec.ofNat 32 p.1) [p.2]) s

/-- `dba` of the region entry at `e`. -/
def setDba (s : Stores) (e dba : Word) : Stores := s.put e (bytes32 dba)

/-- `dbc`: the low 22 bits of the fourth word. -/
def setDbc (s : Stores) (e dbc : Word) : Stores :=
  s.put (e + 12) (bytes32 (s.mem.word (e + 12) &&& 0xFFC00000 ||| dbc &&& 0x003FFFFF))

/-- `i = 1`: the top bit of the fourth word. -/
def setI (s : Stores) (e : Word) : Stores :=
  s.put (e + 12) (bytes32 (s.mem.word (e + 12) ||| 0x80000000))

end Stores

/-- `&cmdheader[slot]`. -/
def header (clb : Word) (slot : ℕ) : Word := clb + BitVec.ofNat 32 (32 * slot)

/-- `&cmdtbl->prdt_entry[i]`. -/
def prdtEntry (tbl i : Word) : Word := tbl + 0x80 + 16 * i

/-- `(uint8_t)(w >> k)`. -/
def byteAt (w : Word) (k : ℕ) : Byte := UInt8.ofBitVec ((w >>> k).setWidth 8)

/-- The variables of the loop over the region entries. -/
structure Regions where
  s : Stores
  i : Word
  buf : Word
  count : Word

/-- The loop body: an entry of 8K, 16 sectors. -/
def Regions.body (tbl : Word) (r : Regions) : Regions where
  s := ((r.s.setDba (prdtEntry tbl r.i) r.buf).setDbc (prdtEntry tbl r.i) (8 * 1024 - 1)).setI
    (prdtEntry tbl r.i)
  i := r.i
  buf := r.buf + 8 * 1024
  count := r.count - 16

/-- `for (i<cmdheader->prdtl-1; i++;)`: the comparison is the initialiser, and the test is `i++`.
Counting up from any other value, `i` is back at 0 within as many rounds as there are words. -/
def Regions.loop (tbl : Word) : ℕ → Regions → Regions
  | 0, r => r
  | n + 1, r =>
      if r.i = 0 then { r with i := r.i + 1 }
      else loop tbl n (body tbl { r with i := r.i + 1 })

/-- `cmdheader->cfl`, `w` and `prdtl`. -/
def setHeader (m : Mem) (h count : Word) : Mem :=
  let m := m.poke h (m h &&& 0xE0 ||| 5)
  let m := m.poke h (m h &&& 0xBF)
  m.store (h + 2) (bytes16 (((count - 1) >>> 4).setWidth 16 + 1))

/-- The command FIS. -/
def setFis (s : Stores) (tbl startl starth count : Word) : Stores :=
  s.putBytes tbl [(0, 0x27), (1, s.mem (tbl + 1) ||| 0x80), (2, 0x25), (4, byteAt startl 0),
    (5, byteAt startl 8), (6, byteAt startl 16), (7, 0x40), (8, byteAt startl 24),
    (9, byteAt starth 0), (10, byteAt starth 8), (12, byteAt count 0), (13, byteAt count 8)]

/-- `read`, from the command header to the command FIS. -/
def setupCommand (m : Mem) (clb : Word) (slot : ℕ) (startl starth count buf : Word) : Stores :=
  let h := header clb slot
  let m := setHeader m h count
  let tbl := m.word (h + 8)
  let size : Word := 144 + ((m.word16 (h + 2)).setWidth 32 - 1) * 16
  let s : Stores := ⟨m.memset tbl 0 size.toNat, addresses tbl size.toNat⟩
  let r := Regions.loop tbl span ⟨s, 0, buf, count⟩
  let e := prdtEntry tbl r.i
  let s := ((r.s.setDba e r.buf).setDbc e (r.count <<< 9 - 1)).setI e
  setFis s tbl startl starth r.count

/-! ## The functions of the driver -/

/-- The loop of `find_cmdslot`; `i` stays below the shifted `slots` for at most 32 rounds. -/
def scanSlots : ℕ → ℕ → Word → Option ℕ
  | 0, _, _ => none
  | n + 1, i, slots =>
      if i < slots.toNat then
        if slots &&& 1 = 0 then some i else scanSlots n (i + 1) (slots >>> 1)
      else none

namespace Drv

variable (hw : Controller)

/-- `find_cmdslot`, `none` for `-1`. -/
def findCmdslot : Drv (Option ℕ) := do
  let sact ← readReg hw .sact
  let ci ← readReg hw .ci
  match scanSlots 33 0 (sact ||| ci) with
  | some i => return some i
  | none =>
      printk "Cannot find free command list entry\n"
      return none

/-- The wait for an idle port, in at most `n` more rounds: is the port hung? -/
def spin : ℕ → Drv Bool
  | 0 => do
      let _ ← readReg hw .tfd
      return true
  | n + 1 => do
      let tfd ← readReg hw .tfd
      if tfd &&& 0x88 = 0 then return false else spin n

/-- The wait for completion, in at most `n` rounds: did it end without a task file error? -/
def complete (slot : ℕ) : ℕ → Drv Bool
  | 0 => throw .hang
  | n + 1 => do
      let ci ← readReg hw .ci
      if ci &&& 1#32 <<< slot = 0 then return true
      else
        let is ← readReg hw .is
        if is &&& 0x40000000 ≠ 0 then
          printk "Read disk error\n"
          return false
        else complete slot n

/-- `read` behind the issue: wait for the command in `slot`, and check for an error. -/
def awaitCommand (slot fuel : ℕ) : Drv Bool := do
  if ← complete hw slot fuel then
    let is ← readReg hw .is
    if is &&& 0x40000000 ≠ 0 then
      printk "Read disk error\n"
      return false
    else return true
  else return false

/-- `read` from the first wait on: issue the command in `slot`, unless the port is hung. -/
def issueCommand (slot fuel : ℕ) : Drv Bool := do
  if ← spin hw 1000000 then
    printk "Port is hung\n"
    return false
  else
    modify fun s => { s with log := s.log ++ [.issue slot s.mem] }
    awaitCommand hw slot fuel

/-- `read`, its second wait bounded by `fuel` rounds. -/
def read (fuel : ℕ) (startl starth count buf : Word) : Drv Bool := do
  note (.write .is 0xFFFFFFFF)
  match ← findCmdslot hw with
  | none => return false
  | some slot =>
      modify fun s =>
        let c := setupCommand s.mem s.port.clb slot startl starth count buf
        { s with mem := c.mem, stored := s.stored ++ c.stored }
      issueCommand hw slot fuel

end Drv

end HuskyKernel
