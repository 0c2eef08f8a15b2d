import HuskyKernel.Logic.Service
import HuskyKernel.Drivers.Disk

/-!
# Drivers/Acpi — power management

`initAcpi` walks the tables the firmware left in memory and, if it gets through to the `\_S5`
package, fills in the driver's ten globals; `acpiPowerOff` writes to the ports named there.  The
walk only reads memory, so an image is a parameter of it; the globals, and what is done to the
hardware, are state.  C's `int`s are integers here: where one would overflow, C promises nothing.

`acpi_guarded`: over all runs, a failed `initAcpi` leaves the globals alone, and nothing is written
to a port before one has succeeded.
-/

namespace HuskyKernel

open Mem Wp

/-- The globals of `acpi.c`. -/
structure Acpi where
  smiCmd : Word
  acpiEnable : Byte
  acpiDisable : Byte
  pm1aCnt : Word
  pm1bCnt : Word
  slpTypA : BitVec 16
  slpTypB : BitVec 16
  slpEn : BitVec 16
  sciEn : BitVec 16
  pm1CntLen : Byte
deriving DecidableEq, Repr

namespace Acpi

/-- What the driver does. -/
inductive Event where
  | inw (port : BitVec 16)
  | outb (port : BitVec 16) (value : Byte)
  | outw (port value : BitVec 16)
  | wrstr (text : List Byte)
deriving DecidableEq, Repr

/-- A write to a port. -/
def Event.writes : Event → Bool
  | .outb _ _ => true
  | .outw _ _ => true
  | _ => false

/-- The globals, and what has been done so far. -/
structure State where
  acpi : Acpi
  log : List Event

/-- What a port answers, and the time in seconds, after what has been done. -/
structure Hardware where
  inw : List Event → BitVec 16 → BitVec 16
  seconds : List Event → Word

/-- A function of the driver: it returns, or it sleeps for ever. -/
abbrev Driver := EStateM Hang State

/-- Note what is done. -/
def note (e : Event) : Driver Unit := modify fun s => { s with log := s.log ++ [e] }

/-- `wrstr`. -/
def wrstr (text : String) : Driver Unit := note (.wrstr (str text))

/-- A pointer given to `inw`, `outb` or `outw` for a port. -/
def port (p : Word) : BitVec 16 := p.setWidth 16

/-! ## The tables -/

section Tables

variable (m : Mem)

/-- `memcmp`, on runs of bytes of one length. -/
def memcmp : List Byte → List Byte → ℤ
  | c :: s, d :: t => if c ≠ d then c.toNat - d.toNat else memcmp s t
  | _, _ => 0

/-- The sum of the next `n` bytes, on top of `check`. -/
def checksum : ℕ → Word → Byte → Byte
  | 0, _, check => check
  | n + 1, ptr, check => checksum n (ptr + 1) (check + m ptr)

/-- `acpiCheckRSDPtr`: the RSDT's address, or NULL. -/
def acpiCheckRSDPtr (ptr : Word) : Word :=
  if memcmp (str "RSD PTR ") (m.load ptr 8) = 0 then
    if checksum m 20 ptr 0 = 0 then m.word (ptr + 16) else 0
  else 0

/-- The loops of `acpiGetRSDPtr`, for `n` rounds. -/
def searchRSDPtr : ℕ → Word → Word
  | 0, _ => 0
  | n + 1, addr =>
      let rsdp := acpiCheckRSDPtr m addr
      if rsdp ≠ 0 then rsdp else searchRSDPtr n (addr + 0x10)

/-- The linear address of the EBDA, from its segment. -/
def ebda : Word := (m.word16 0x40E).signExtend 32 * 0x10 &&& 0x000FFFFF

/-- `acpiGetRSDPtr`: from `0xE0000` to the 1 MB mark, then the first 1024 bytes of the EBDA. -/
def acpiGetRSDPtr : Word :=
  let rsdp := searchRSDPtr m 0x2000 0x000E0000
  if rsdp ≠ 0 then rsdp else searchRSDPtr m 64 (ebda m)

/-- `acpiCheckHeader`. -/
def acpiCheckHeader (ptr : Word) (sig : List Byte) : ℤ :=
  if memcmp (m.load ptr 4) sig = 0 then
    let len := (m.word (ptr + 4)).toInt
    if checksum m len.toNat ptr 0 = 0 then 0 else -1
  else -1

/-- The search for the package, with `dsdtLength = n`: where it ends, and `dsdtLength` then. -/
def searchS5 : ℕ → Word → Word × ℤ
  | 0, s5Addr => (s5Addr, -1)
  | n + 1, s5Addr =>
      if memcmp (m.load s5Addr 4) (str "_S5_") = 0 then (s5Addr, n) else searchS5 n (s5Addr + 1)

/-- The test for valid AML structure. -/
def isName (s5Addr : Word) : Bool :=
  (m (s5Addr - 1) = 0x08 || (m (s5Addr - 2) = 0x08 && m (s5Addr - 1) = chr '\\')) &&
    m (s5Addr + 4) = 0x12

/-- `((*S5Addr &0xC0)>>6) +2`: the `PkgLength` with this lead byte, and the number of elements. -/
def pkgLengthSize (lead : Byte) : Word := (lead.toBitVec.signExtend 32 &&& 0xC0) >>> 6 + 2

/-- `if (*S5Addr == 0x0A) S5Addr++;` -/
def skipBytePrefix (s5Addr : Word) : Word := if m s5Addr = 0x0A then s5Addr + 1 else s5Addr

/-- `*(S5Addr)<<10`, of a `char`. -/
def slpTyp (s5Addr : Word) : BitVec 16 := ((m s5Addr).toBitVec.signExtend 32 <<< 10).setWidth 16

/-- The globals, as read from the package and the FACP. -/
def fromTables (facp s5Addr : Word) : Acpi :=
  let s5Addr := s5Addr + 5
  let s5Addr := s5Addr + pkgLengthSize (m s5Addr)
  let a := skipBytePrefix m s5Addr
  let b := skipBytePrefix m (a + 1)
  { slpTypA := slpTyp m a
    slpTypB := slpTyp m b
    smiCmd := m.word (facp + 48)
    acpiEnable := m (facp + 52)
    acpiDisable := m (facp + 53)
    pm1aCnt := m.word (facp + 64)
    pm1bCnt := m.word (facp + 68)
    pm1CntLen := m (facp + 89)
    slpEn := 1 <<< 13
    sciEn := 1 }

/-- The branch for the FACP: has it been read to the end? -/
def readFacp (facp : Word) : Driver Bool := do
  let dsdt := m.word (facp + 40)
  if acpiCheckHeader m dsdt (str "DSDT") = 0 then
    let (s5Addr, dsdtLength) := searchS5 m (m.word (dsdt + 4) - 36).toInt.toNat (dsdt + 36)
    if dsdtLength > 0 then
      if isName m s5Addr then
        modify fun s => { s with acpi := fromTables m facp s5Addr }
        return true
      else
        wrstr "\\_S5 parse error.\n"
        return false
    else
      wrstr "\\_S5 not present.\n"
      return false
  else
    wrstr "DSDT invalid.\n"
    return false

/-- The loop over the RSDT, with `entrys = n`.  It ends at the first FACP, as `entrys = -2`. -/
def tableLoop : ℕ → Word → Driver ℤ
  | 0, _ => do
      wrstr "no valid FACP present.\n"
      return -1
  | n + 1, ptr => do
      if acpiCheckHeader m (m.word ptr) (str "FACP") = 0 then
        if ← readFacp m (m.word ptr) then return 0
        else
          wrstr "no valid FACP present.\n"
          return -1
      else tableLoop n (ptr + 4)

/-- `initAcpi`. -/
def initAcpi : Driver ℤ := do
  let ptr := acpiGetRSDPtr m
  if ptr ≠ 0 ∧ acpiCheckHeader m ptr (str "RSDT") = 0 then
    -- a length less than 36 above -2³¹ overflows in C; here it leaves no entry
    let entrys := ((m.word (ptr + 4)).toInt - 36).tdiv 4
    tableLoop m entrys.toNat (ptr + 36)
  else
    wrstr "no acpi.\n"
    return -1

end Tables

/-! ## The ports -/

section Ports

variable (hw : Hardware)

/-- `inw`. -/
def inw (p : Word) : Driver (BitVec 16) := fun s =>
  .ok (hw.inw s.log (port p)) { s with log := s.log ++ [.inw (port p)] }

/-- `sleep`: it waits for the address of `get_time_in_seconds`, not for what that returns, to be the
time asked for. -/
def sleep (getTimeInSeconds duration : Word) : Driver Unit := do
  let time := hw.seconds (← get).log
  if getTimeInSeconds = time + duration / 100 then return () else throw .hang

/-- The waits of `acpiEnable`, with `n` of 300 rounds left: the rounds gone through in the end. -/
def awaitEnabled (getTimeInSeconds p : Word) : ℕ → Driver ℕ
  | 0 => return 300
  | n + 1 => do
      let v ← inw hw p
      if v &&& (← get).acpi.sciEn = 1 then return 300 - (n + 1)
      else
        sleep hw getTimeInSeconds 10
        awaitEnabled getTimeInSeconds p n

/-- `acpiEnable`. -/
def enable (getTimeInSeconds : Word) : Driver ℤ := do
  let g := (← get).acpi
  let v ← inw hw g.pm1aCnt
  if v &&& g.sciEn = 0 then
    if g.smiCmd ≠ 0 ∧ g.acpiEnable ≠ 0 then
      note (.outb (port g.smiCmd) g.acpiEnable)
      let mut i ← awaitEnabled hw getTimeInSeconds g.pm1aCnt 300
      if g.pm1bCnt ≠ 0 then
        i ← awaitEnabled hw getTimeInSeconds g.pm1bCnt (300 - i)
      if i < 300 then
        wrstr "enabled acpi.\n"
        return 0
      else
        wrstr "couldn't enable acpi.\n"
        return -1
    else
      wrstr "no known way to enable acpi.\n"
      return -1
  else return 0

/-- `acpiPowerOff`. -/
def acpiPowerOff (getTimeInSeconds : Word) : Driver Unit := do
  let g := (← get).acpi
  if g.sciEn = 0 then return ()
  else
    let _ ← enable hw getTimeInSeconds
    note (.outw (port g.pm1aCnt) (g.slpTypA ||| g.slpEn))
    if g.pm1bCnt ≠ 0 then
      note (.outw (port g.pm1bCnt) (g.slpTypB ||| g.slpEn))
    wrstr "acpi poweroff failed.\n"

end Ports

/-! ## Success and failure -/

section Outcome

variable {m : Mem} {s : State}

@[simp] theorem wp_wrstr {Q : Unit → State → Prop} {E : Hang → State → Prop} (text : String) :
    wp (wrstr text) Q E s ↔ Q () { s with log := s.log ++ [.wrstr (str text)] } := Iff.rfl

/-- From `s` to `t`: all of the globals are set, or none has changed. -/
def Settled (done : Prop) (s t : State) : Prop :=
  (done → t.acpi.sciEn = 1) ∧ (¬ done → t.acpi = s.acpi)

theorem wp_readFacp (m : Mem) (facp : Word) (s : State) :
    wp (readFacp m facp) (fun r t => Settled (r = true) s t) (fun _ _ => False) s := by
  have hfail : ∀ text, wp (do wrstr text; return false : Driver Bool)
      (fun r t => Settled (r = true) s t) (fun _ _ => False) s :=
    fun text => ⟨fun h => absurd h Bool.false_ne_true, fun _ => rfl⟩
  rw [readFacp]
  simp only [wp_ite]
  refine ⟨fun _ => ⟨fun _ => ⟨fun _ => ?_, fun _ => hfail _⟩, fun _ => hfail _⟩, fun _ => hfail _⟩
  exact ⟨fun _ => rfl, fun h => absurd rfl h⟩

theorem wp_tableLoop (m : Mem) : ∀ (n : ℕ) (ptr : Word) (s : State),
    wp (tableLoop m n ptr) (fun r t => (r = 0 ∨ r = -1) ∧ Settled (r = 0) s t)
      (fun _ _ => False) s
  | 0, ptr, s => ⟨Or.inr rfl, fun h => absurd h (by decide), fun _ => rfl⟩
  | n + 1, ptr, s => by
      rw [tableLoop, wp_ite]
      refine ⟨fun _ => ?_, fun _ => wp_tableLoop m n (ptr + 4) s⟩
      rw [wp_bind]
      refine wp_mono (wp_readFacp m (m.word ptr) s) (fun done t ht => ?_) fun _ _ h => h
      rw [wp_ite]
      refine ⟨fun hdone => ⟨Or.inl rfl, fun _ => ht.1 hdone, fun h => absurd rfl h⟩,
        fun hdone => ?_⟩
      exact ⟨Or.inr rfl, fun h => absurd h (by decide), fun _ => ht.2 hdone⟩

/-- **`initAcpi` returns**, and it has set all of the globals or none. -/
theorem wp_initAcpi (m : Mem) (s : State) :
    wp (initAcpi m) (fun r t => (r = 0 ∨ r = -1) ∧ Settled (r = 0) s t) (fun _ _ => False) s := by
  rw [initAcpi]
  simp only [wp_ite]
  refine ⟨fun _ => wp_tableLoop m _ _ s, fun _ => ?_⟩
  exact ⟨Or.inr rfl, fun h => absurd h (by decide), fun _ => rfl⟩

end Outcome

/-! ## A run -/

/-- The two functions. -/
inductive Op where
  | initAcpi (m : Mem)
  | acpiPowerOff

/-- What a call returns, if it does. -/
def answer (f : Driver ℤ) (s : State) : Option ℤ :=
  match f s with
  | .ok r _ => some r
  | .error _ _ => none

/-- Both functions as one service, from boot; memory is as each `initAcpi` finds it. -/
def service (hw : Hardware) (getTimeInSeconds : Word) : Service Op (Option ℤ) State where
  boot := ⟨⟨0, 0, 0, 0, 0, 0, 0, 0, 0, 0⟩, []⟩
  call := fun s op =>
    match op with
    | .initAcpi m => (answer (initAcpi m) s, after (initAcpi m) s)
    | .acpiPowerOff => (none, after (acpiPowerOff hw getTimeInSeconds) s)

/-- Some `initAcpi` returned 0. -/
def Succeeded (h : List (Op × Option ℤ)) : Prop := ∃ m, (.initAcpi m, some 0) ∈ h

/-- What holds of the next call, whichever it is. -/
structure Guarded (hw : Hardware) (getTimeInSeconds : Word) (h : List (Op × Option ℤ))
    (s : State) : Prop where
  failed : ∀ m, answer (initAcpi m) s = some (-1) → (after (initAcpi m) s).acpi = s.acpi
  powerOff : ∀ l, (after (acpiPowerOff hw getTimeInSeconds) s).log = s.log ++ l →
    ∀ e ∈ l, e.writes = true → Succeeded h

section Run

variable {hw : Hardware} {getTimeInSeconds : Word} {m : Mem} {s : State}

theorem acpi_of_failed (h : answer (initAcpi m) s = some (-1)) :
    (after (initAcpi m) s).acpi = s.acpi := by
  have hinit := wp_initAcpi m s
  rw [answer] at h
  rw [after]
  cases hrun : initAcpi m s with
  | ok r t =>
    rw [hrun] at h
    obtain rfl : r = -1 := Option.some.inj h
    exact ((wp_of_ok hrun).mp hinit).2.2 (by decide)
  | error e t => exact ((wp_of_error hrun).mp hinit).elim

/-- After `initAcpi`, `SCI_EN` is set only if it was before or the call returned 0. -/
theorem answer_of_sciEn (h : (after (initAcpi m) s).acpi.sciEn ≠ 0) :
    s.acpi.sciEn ≠ 0 ∨ answer (initAcpi m) s = some 0 := by
  have hinit := wp_initAcpi m s
  rw [after] at h
  rw [answer]
  cases hrun : initAcpi m s with
  | ok r t =>
    obtain ⟨hr, -, hfailed⟩ := (wp_of_ok hrun).mp hinit
    rw [hrun] at h
    by_cases hr0 : r = 0
    · exact Or.inr (congrArg some hr0)
    · exact Or.inl (by rwa [← hfailed hr0])
  | error e t => exact ((wp_of_error hrun).mp hinit).elim

/-- Without `SCI_EN`, `acpiPowerOff` does nothing at all. -/
theorem acpiPowerOff_of_sciEn (h : s.acpi.sciEn = 0) :
    acpiPowerOff hw getTimeInSeconds s = .ok () s := by
  rw [acpiPowerOff, bind_of_ok (m := (get : Driver State)) rfl, if_pos h]
  rfl

/-- **`SCI_EN` is a guard**: it is set only once an `initAcpi` has succeeded. -/
theorem sciEn_run (hw : Hardware) (getTimeInSeconds : Word) (ops : List Op) :
    ((service hw getTimeInSeconds).state ops).acpi.sciEn ≠ 0 →
      Succeeded ((service hw getTimeInSeconds).history ops) := by
  refine (service hw getTimeInSeconds).invariant (P := fun h s => s.acpi.sciEn ≠ 0 → Succeeded h)
    (fun h => absurd rfl h) (fun h s op ih hset => ?_) ops
  have hmono : Succeeded h → Succeeded (h ++ [(op, ((service hw getTimeInSeconds).call s op).1)]) :=
    fun ⟨m, hm⟩ => ⟨m, List.mem_append_left _ hm⟩
  cases op with
  | initAcpi m =>
    rcases answer_of_sciEn hset with hbefore | hanswer
    · exact hmono (ih hbefore)
    · exact ⟨m, List.mem_append_right _ (List.mem_singleton.mpr (Prod.ext rfl hanswer.symm))⟩
  | acpiPowerOff =>
    refine hmono (ih fun h0 => hset ?_)
    change (after (acpiPowerOff hw getTimeInSeconds) s).acpi.sciEn = 0
    rw [after, acpiPowerOff_of_sciEn h0]
    exact h0

/-- **The globals are set only by a full success**: over every run, a failed `initAcpi` leaves them
alone, and `acpiPowerOff` writes to a port only after an `initAcpi` that returned 0. -/
theorem acpi_guarded (hw : Hardware) (getTimeInSeconds : Word) (ops : List Op) :
    Guarded hw getTimeInSeconds ((service hw getTimeInSeconds).history ops)
      ((service hw getTimeInSeconds).state ops) := by
  refine ⟨fun m => acpi_of_failed, fun l hl e he _ => ?_⟩
  refine sciEn_run hw getTimeInSeconds ops fun h0 => ?_
  rw [after, acpiPowerOff_of_sciEn h0] at hl
  obtain rfl : l = [] := List.self_eq_append_right.mp hl
  cases he

end Run

end Acpi

end HuskyKernel
