import HuskyKernel.System.Compare
import HuskyKernel.Drivers.Tables

/-!
# Drivers/SoftOffReads — how far the search for the soft-off package reads

The branch of `initAcpi` for the FACP, with its reads of the DSDT noted, address by address: the
comparison that slides along the body and stops at the first difference, the test of what is around
the name, and the bytes decoded behind it.  `findS5_inside_iff`: they are all inside the table
exactly if the first whole name is followed, as far as it is decoded, by bytes of the table, or
there is none and the table does not end in the beginning of one.
-/

namespace HuskyKernel

open Mem Wp

/-- A word is read. -/
def Mem.readWord (m : Mem) (a : Word) : Noted Word Word := ⟨m.word a, [a, a + 1, a + 2, a + 3]⟩

namespace Acpi

/-! ## The reads -/

section Reads

variable (m : Mem)

/-- `memcmp(a, bs, n)`, for a constant `bs` of `n` bytes. -/
def memcmpAt : Word → List Byte → Noted Word ℤ
  | _, [] => return 0
  | a, d :: bs => do
      let c ← m.read a
      if c ≠ d then return c.toNat - d.toNat else memcmpAt (a + 1) bs

/-- The search for the package, with `dsdtLength = n`. -/
def searchS5At : ℕ → Word → Noted Word (Word × ℤ)
  | 0, s5Addr => return (s5Addr, -1)
  | n + 1, s5Addr => do
      if (← memcmpAt m s5Addr (str "_S5_")) = 0 then return (s5Addr, n)
      else searchS5At n (s5Addr + 1)

/-- The left operand of `&&` in the test for valid AML structure. -/
def isFrontAt (s5Addr : Word) : Noted Word Bool := do
  if (← m.read (s5Addr - 1)) = 0x08 then return true
  else if (← m.read (s5Addr - 2)) = 0x08 then return (← m.read (s5Addr - 1)) = chr '\\'
  else return false

/-- The test for valid AML structure. -/
def isNameAt (s5Addr : Word) : Noted Word Bool := do
  if ← isFrontAt m s5Addr then return (← m.read (s5Addr + 4)) = 0x12 else return false

/-- `if (*S5Addr == 0x0A) S5Addr++;` -/
def skipBytePrefixAt (s5Addr : Word) : Noted Word Word := do
  if (← m.read s5Addr) = 0x0A then return s5Addr + 1 else return s5Addr

/-- `*(S5Addr)<<10`. -/
def slpTypAt (s5Addr : Word) : Noted Word (BitVec 16) := do
  return ((← m.read s5Addr).toBitVec.signExtend 32 <<< 10).setWidth 16

/-- The globals, as read from the package and the FACP; what is read of the FACP is not noted. -/
def fromTablesAt (facp s5Addr : Word) : Noted Word Acpi := do
  let lead ← m.read (s5Addr + 5)
  let a ← skipBytePrefixAt m (s5Addr + 5 + pkgLengthSize lead)
  let slpTypA ← slpTypAt m a
  let b ← skipBytePrefixAt m (a + 1)
  let slpTypB ← slpTypAt m b
  return { fromTables m facp s5Addr with slpTypA := slpTypA, slpTypB := slpTypB }

/-- How the search ends. -/
inductive S5 where
  | found (g : Acpi)
  | parseError
  | notPresent

/-- The search for the package, and its decoding. -/
def findS5 (facp : Word) : Noted Word S5 := do
  let dsdt := m.word (facp + 40)
  let length ← m.readWord (dsdt + 4)
  let (s5Addr, dsdtLength) ← searchS5At m (length - 36).toInt.toNat (dsdt + 36)
  if dsdtLength > 0 then
    if ← isNameAt m s5Addr then return .found (← fromTablesAt m facp s5Addr)
    else return .parseError
  else return .notPresent

/-- What is made of it. -/
def S5.report : S5 → Driver Bool
  | .found g => do
      modify fun s => { s with acpi := g }
      return true
  | .parseError => do
      wrstr "\\_S5 parse error.\n"
      return false
  | .notPresent => do
      wrstr "\\_S5 not present.\n"
      return false

end Reads

/-! ## They are the driver's -/

section Value

variable {m : Mem}

@[simp] theorem value_readWord (a : Word) : (m.readWord a).value = m.word a := rfl

theorem value_memcmpAt : ∀ (bs : List Byte) (a : Word),
    (memcmpAt m a bs).value = memcmp (m.load a bs.length) bs
  | [], _ => rfl
  | d :: bs, a => by
      rw [memcmpAt, Noted.value_bind, Noted.value_ite, value_memcmpAt bs (a + 1)]
      rfl

theorem value_searchS5At : ∀ (n : ℕ) (a : Word), (searchS5At m n a).value = searchS5 m n a
  | 0, _ => rfl
  | n + 1, a => by
      rw [searchS5At, searchS5, Noted.value_bind, Noted.value_ite, value_memcmpAt,
        value_searchS5At n (a + 1)]
      rfl

/-- What is in front of a name. -/
def isFront (m : Mem) (s5Addr : Word) : Bool :=
  m (s5Addr - 1) = 0x08 || (m (s5Addr - 2) = 0x08 && m (s5Addr - 1) = chr '\\')

theorem isName_eq (m : Mem) (s5Addr : Word) :
    isName m s5Addr = (isFront m s5Addr && decide (m (s5Addr + 4) = 0x12)) := rfl

theorem value_isFrontAt (a : Word) : (isFrontAt m a).value = isFront m a := by
  rw [isFrontAt, Noted.value_bind, value_read, isFront]
  by_cases hlast : m (a - 1) = 0x08
  · rw [if_pos hlast, decide_eq_true hlast]
    rfl
  · rw [if_neg hlast, decide_eq_false hlast, Bool.false_or, Noted.value_bind, value_read]
    by_cases hprev : m (a - 2) = 0x08
    · rw [if_pos hprev, decide_eq_true hprev]
      rfl
    · rw [if_neg hprev, decide_eq_false hprev]
      rfl

theorem value_isNameAt (a : Word) : (isNameAt m a).value = isName m a := by
  rw [isNameAt, Noted.value_bind, value_isFrontAt, isName_eq]
  cases isFront m a <;> rfl

theorem value_skipBytePrefixAt (a : Word) :
    (skipBytePrefixAt m a).value = skipBytePrefix m a := by
  rw [skipBytePrefixAt, Noted.value_bind, Noted.value_ite, skipBytePrefix]
  rfl

theorem value_fromTablesAt (facp a : Word) :
    (fromTablesAt m facp a).value = fromTables m facp a := by
  simp only [fromTablesAt, Noted.value_bind, value_skipBytePrefixAt]
  rfl

/-- **The branch for the FACP is this search**, without its notes. -/
theorem readFacp_eq (m : Mem) (facp : Word) :
    readFacp m facp = if acpiCheckHeader m (m.word (facp + 40)) (str "DSDT") = 0 then
      (findS5 m facp).value.report
    else do
      wrstr "DSDT invalid.\n"
      return false := by
  rw [readFacp, findS5]
  refine if_congr Iff.rfl ?_ rfl
  simp only [Noted.value_bind, value_searchS5At, value_readWord]
  generalize searchS5 m _ _ = found
  obtain ⟨s5Addr, dsdtLength⟩ := found
  dsimp only
  by_cases hleft : dsdtLength > 0
  · rw [if_pos hleft, if_pos hleft, Noted.value_bind, value_isNameAt]
    by_cases hname : isName m s5Addr = true
    · rw [if_pos hname, if_pos hname, Noted.value_bind, value_fromTablesAt]
      rfl
    · rw [if_neg hname, if_neg hname]
      rfl
  · rw [if_neg hleft, if_neg hleft]
    rfl

end Value

/-! ## What they read -/

section Forall

variable {m : Mem} {P : Word → Prop} {a facp : Word}

open Noted

/-- A comparison reads on behind the bytes that are as they should be. -/
theorem forall_memcmpAt {bs : List Byte} : Forall P (memcmpAt m a bs) ↔
    ∀ i < bs.length, Holds m a (bs.take i) → P (a + BitVec.ofNat 32 i) := by
  induction bs generalizing a with
  | nil => exact iff_of_true (forall_pure 0) fun i hi => absurd hi (Nat.not_lt_zero i)
  | cons d bs ih =>
    have hnil : Holds m a ((d :: bs).take 0) := rfl
    rw [memcmpAt, forall_bind_iff, forall_read, forall_ite_iff, value_read,
      and_iff_right fun _ => forall_pure _, not_not, ih, List.length_cons,
      Nat.forall_lt_succ_left, forall_prop_of_true hnil, BitVec.add_zero]
    refine and_congr_right fun _ => ?_
    simp only [List.take_succ_cons, holds_cons, add_ofNat_succ, and_imp]
    exact ⟨fun h i hi hd => h hd i hi, fun h hd i hi => h i hi hd⟩

/-- The name that is looked for. -/
def s5Name : List Byte := str "_S5_"

/-- The search compares at every address up to the first name. -/
theorem forall_searchS5At {n : ℕ} : Forall P (searchS5At m n a) ↔
    ∀ k < n, (∀ i < k, ¬ Holds m (a + BitVec.ofNat 32 i) s5Name) →
      Forall P (memcmpAt m (a + BitVec.ofNat 32 k) s5Name) := by
  induction n generalizing a with
  | zero => exact iff_of_true (forall_pure _) fun k hk => absurd hk (Nat.not_lt_zero k)
  | succ n ih =>
    have hcmp : (memcmpAt m a (str "_S5_")).value = 0 ↔ Holds m a s5Name := by
      rw [value_memcmpAt]
      exact memcmp_load_iff _
    rw [searchS5At, forall_bind_iff, forall_ite_iff, hcmp, and_iff_right fun _ => forall_pure _, ih,
      Nat.forall_lt_succ_left, BitVec.add_zero,
      forall_prop_of_true fun i hi => absurd hi (Nat.not_lt_zero i)]
    refine and_congr_right fun _ => ?_
    simp only [Nat.forall_lt_succ_left, BitVec.add_zero, add_ofNat_succ, and_imp]
    exact ⟨fun h k hk ha => h ha k hk, fun h ha k hk => h k hk ha⟩

/-- The test reads behind the name if what is in front of it is as it should be. -/
theorem forall_isNameAt (h1 : P (a - 1)) (h2 : P (a - 2)) :
    Forall P (isNameAt m a) ↔ (isFront m a = true → P (a + 4)) := by
  have hfront : Forall P (isFrontAt m a) := by
    rw [isFrontAt, forall_bind_iff, forall_ite_iff, forall_bind_iff, forall_ite_iff,
      forall_bind_iff]
    exact ⟨forall_read.mpr h1, fun _ => forall_pure _, fun _ => ⟨forall_read.mpr h2,
      fun _ => ⟨forall_read.mpr h1, forall_pure _⟩, fun _ => forall_pure _⟩⟩
  rw [isNameAt, forall_bind_iff, and_iff_right hfront, forall_ite_iff, value_isFrontAt,
    forall_bind_iff, forall_read, and_iff_left fun _ => forall_pure _]
  exact forall_congr' fun _ => and_iff_left (forall_pure _)

theorem forall_skipBytePrefixAt : Forall P (skipBytePrefixAt m a) ↔ P a := by
  rw [skipBytePrefixAt, forall_bind_iff, forall_read, forall_ite_iff]
  exact and_iff_left ⟨fun _ => forall_pure _, fun _ => forall_pure _⟩

theorem forall_slpTypAt : Forall P (slpTypAt m a) ↔ P a := by
  rw [slpTypAt, forall_bind_iff, forall_read]
  exact and_iff_left (forall_pure _)

/-! ## The bytes decoded -/

/-- How far a byte prefix moves the decoding on. -/
def prefixLength (m : Mem) (a : Word) : ℕ := if m a = 0x0A then 1 else 0

/-- Where the first element is, from the name on. -/
def elementA (m : Mem) (a : Word) : ℕ := 7 + (m (a + 5) >>> 6).toNat

/-- Where its byte is. -/
def byteA (m : Mem) (a : Word) : ℕ :=
  elementA m a + prefixLength m (a + BitVec.ofNat 32 (elementA m a))

/-- Where the byte of the second one is: the last that is decoded. -/
def byteB (m : Mem) (a : Word) : ℕ :=
  byteA m a + 1 + prefixLength m (a + BitVec.ofNat 32 (byteA m a + 1))

theorem prefixLength_le (m : Mem) (a : Word) : prefixLength m a ≤ 1 := by
  rw [prefixLength]
  split_ifs <;> decide

theorem byteB_lt (m : Mem) (a : Word) : byteB m a < 16 := by
  have hlead : (m (a + 5) >>> 6).toNat < 4 := by
    have hlt := (m (a + 5)).toNat_lt
    rw [UInt8.toNat_shiftRight, show (6 : Byte).toNat % 8 = 6 from rfl, Nat.shiftRight_eq_div_pow]
    omega
  have hA := prefixLength_le m (a + BitVec.ofNat 32 (elementA m a))
  have hB := prefixLength_le m (a + BitVec.ofNat 32 (byteA m a + 1))
  rw [byteB]
  rw [byteA, elementA] at *
  omega

theorem skipBytePrefix_eq (m : Mem) (a : Word) (i : ℕ) :
    skipBytePrefix m (a + BitVec.ofNat 32 i) =
      a + BitVec.ofNat 32 (i + prefixLength m (a + BitVec.ofNat 32 i)) := by
  rw [skipBytePrefix, prefixLength, BitVec.ofNat_add, ← BitVec.add_assoc]
  split_ifs
  · rfl
  · exact (BitVec.add_zero _).symm

/-- **Decoding stays inside** if the last byte decoded is inside. -/
theorem forall_fromTablesAt {room : ℕ} (hP : ∀ i < 16, P (a + BitVec.ofNat 32 i) ↔ i < room) :
    Forall P (fromTablesAt m facp a) ↔ byteB m a < room := by
  have hlt := byteB_lt m a
  have hA : elementA m a ≤ byteA m a := Nat.le_add_right _ _
  have hB : byteA m a + 1 ≤ byteB m a := Nat.le_add_right _ _
  have hlead : 5 ≤ elementA m a := by
    rw [elementA]
    omega
  have hstart : a + 5 + pkgLengthSize (m (a + 5)) = a + BitVec.ofNat 32 (elementA m a) := by
    rw [pkgLengthSize_eq, elementA, show (5 : Word) = BitVec.ofNat 32 5 from rfl, BitVec.add_assoc,
      ← BitVec.ofNat_add, Nat.add_left_comm, Nat.add_comm 7]
  have hskipA : skipBytePrefix m (a + BitVec.ofNat 32 (elementA m a)) =
      a + BitVec.ofNat 32 (byteA m a) := skipBytePrefix_eq m a (elementA m a)
  have hnext : a + BitVec.ofNat 32 (byteA m a) + 1 = a + BitVec.ofNat 32 (byteA m a + 1) := by
    rw [BitVec.ofNat_add, BitVec.add_assoc]
    rfl
  have hskipB : skipBytePrefix m (a + BitVec.ofNat 32 (byteA m a + 1)) =
      a + BitVec.ofNat 32 (byteB m a) := skipBytePrefix_eq m a (byteA m a + 1)
  have h5 : P (a + 5) ↔ 5 < room := hP 5 (by decide)
  simp only [fromTablesAt, forall_bind_iff, forall_read, forall_skipBytePrefixAt, forall_slpTypAt,
    value_read, value_skipBytePrefixAt, hstart, hskipA, hnext, hskipB, forall_pure, and_true]
  rw [h5, hP _ (by omega), hP _ (by omega), hP _ (by omega), hP _ hlt]
  omega

end Forall

/-! ## Inside the table -/

section Inside

variable {m : Mem} {dsdt facp : Word} {k i : ℕ}

open Noted

/-- `dsdtLength`, as the search starts: the bytes of the body. -/
def bodyLength (m : Mem) (dsdt : Word) : ℕ := (m.word (dsdt + 4) - 36).toInt.toNat

/-- The `k`-th byte of the body. -/
def bodyAt (dsdt : Word) (k : ℕ) : Word := dsdt + 36 + BitVec.ofNat 32 k

/-- The first whole name in the body. -/
def firstName (m : Mem) (dsdt : Word) : Option ℕ :=
  (List.range (bodyLength m dsdt)).find? fun k =>
    k + 4 ≤ bodyLength m dsdt ∧ Holds m (bodyAt dsdt k) s5Name

/-- The body ends in the beginning of a name. -/
def EndsInName (m : Mem) (dsdt : Word) : Prop :=
  ∃ k < bodyLength m dsdt, bodyLength m dsdt - k < 4 ∧
    Holds m (bodyAt dsdt k) (s5Name.take (bodyLength m dsdt - k))

/-- What is decoded, and what is compared, is inside the table. -/
def Inside (m : Mem) (dsdt : Word) : Prop :=
  match firstName m dsdt with
  | some k => isFront m (bodyAt dsdt k) = true → k + 4 < bodyLength m dsdt ∧
      (m (bodyAt dsdt k + 4) = 0x12 → k + byteB m (bodyAt dsdt k) < bodyLength m dsdt)
  | none => ¬ EndsInName m dsdt

/-- An address inside the table. -/
def InTable (m : Mem) (dsdt x : Word) : Prop := Within dsdt (declared m dsdt) x

theorem bodyLength_lt (m : Mem) (dsdt : Word) : bodyLength m dsdt < 2 ^ 31 := by
  have hlt := (m.word (dsdt + 4) - 36).toInt_lt
  rw [bodyLength]
  omega

/-- Where there is a body, it is what the header leaves of the table. -/
theorem declared_eq (h : 36 ≤ declared m dsdt) (hk : k < bodyLength m dsdt) :
    declared m dsdt = 36 + bodyLength m dsdt := by
  have hlength := toInt_sub_header (m.word (dsdt + 4)) h
  rw [bodyLength] at *
  rw [declared] at *
  split_ifs at hlength <;> omega

theorem bodyAt_eq (dsdt : Word) (k : ℕ) : bodyAt dsdt k = dsdt + BitVec.ofNat 32 (36 + k) := by
  rw [bodyAt, BitVec.ofNat_add, ← BitVec.add_assoc]
  rfl

/-- **Where the body is, the table is.** -/
theorem inTable_bodyAt (h : 36 ≤ declared m dsdt) (hk : k < bodyLength m dsdt) (hi : i < 16) :
    InTable m dsdt (bodyAt dsdt k + BitVec.ofNat 32 i) ↔ k + i < bodyLength m dsdt := by
  have hlength := declared_eq h hk
  have hlt := bodyLength_lt m dsdt
  rw [InTable, bodyAt_eq, BitVec.add_assoc, ← BitVec.ofNat_add, Within.add_ofNat_iff (by omega)]
  omega

/-- In front of a name are bytes of the table. -/
theorem inTable_before (h : 36 ≤ declared m dsdt) (hk : k < bodyLength m dsdt) (hi : i ≤ 2) :
    InTable m dsdt (bodyAt dsdt k - BitVec.ofNat 32 i) := by
  have hlength := declared_eq h hk
  have hlt := bodyLength_lt m dsdt
  have hback : 36 + k = 36 + k - i + i := by omega
  rw [InTable, bodyAt_eq, hback, BitVec.ofNat_add, ← BitVec.add_assoc, BitVec.add_sub_cancel,
    Within.add_ofNat_iff (by omega)]
  omega

/-! ### The search -/

/-- The comparisons of a search that has met no name before. -/
theorem inTable_memcmpAt (h : 36 ≤ declared m dsdt) (hk : k < bodyLength m dsdt) :
    Forall (InTable m dsdt) (memcmpAt m (bodyAt dsdt k) s5Name) ↔
      ∀ i < 4, Holds m (bodyAt dsdt k) (s5Name.take i) → k + i < bodyLength m dsdt := by
  rw [forall_memcmpAt]
  have hlen : s5Name.length = 4 := by decide
  rw [hlen]
  exact forall_congr' fun i => forall_congr' fun hi =>
    imp_congr_right fun _ => inTable_bodyAt h hk (hi.trans (by decide))

theorem firstName_eq_some (hfirst : firstName m dsdt = some k) :
    k + 4 ≤ bodyLength m dsdt ∧ Holds m (bodyAt dsdt k) s5Name ∧
      ∀ i < k, ¬ Holds m (bodyAt dsdt i) s5Name := by
  obtain ⟨hk, -, hbefore⟩ := List.find?_range_eq_some.mp hfirst
  obtain ⟨hle, hholds⟩ := of_decide_eq_true hk
  refine ⟨hle, hholds, fun i hi hname => ?_⟩
  have hnot := hbefore i hi
  rw [decide_eq_true ⟨by omega, hname⟩] at hnot
  exact absurd hnot (by decide)

theorem firstName_eq_none (hfirst : firstName m dsdt = none) (hk : k + 4 ≤ bodyLength m dsdt) :
    ¬ Holds m (bodyAt dsdt k) s5Name := by
  intro hname
  have hnot := List.find?_eq_none.mp hfirst k (List.mem_range.mpr (by omega))
  exact hnot (decide_eq_true ⟨hk, hname⟩)

/-- Up to a whole name, the search stays inside. -/
theorem forall_search_of_some (h : 36 ≤ declared m dsdt) (hfirst : firstName m dsdt = some k) :
    Forall (InTable m dsdt) (searchS5At m (bodyLength m dsdt) (dsdt + 36)) := by
  obtain ⟨hle, hname, -⟩ := firstName_eq_some hfirst
  refine forall_searchS5At.mpr fun j hj hbefore => (inTable_memcmpAt h hj).mpr fun i hi _ => ?_
  have hjk : j ≤ k := by
    by_contra hlt
    exact hbefore k (not_le.mp hlt) hname
  omega

/-- Without one, it does if the body does not end in the beginning of one. -/
theorem forall_search_of_none (h : 36 ≤ declared m dsdt) (hfirst : firstName m dsdt = none) :
    Forall (InTable m dsdt) (searchS5At m (bodyLength m dsdt) (dsdt + 36)) ↔
      ¬ EndsInName m dsdt := by
  rw [forall_searchS5At]
  constructor
  · rintro hall ⟨k, hk⟩
    -- The first such beginning is compared, as no whole name is before it.
    induction k using Nat.strong_induction_on with
    | _ k ih =>
      obtain ⟨hlt, hshort, hholds⟩ := hk
      refine absurd ((inTable_memcmpAt h hlt).mp (hall k hlt fun i hi hname => ?_) _ hshort hholds)
        (by omega)
      have hover : bodyLength m dsdt < i + 4 := by
        by_contra hle
        exact firstName_eq_none hfirst (not_lt.mp hle) hname
      refine ih i hi ⟨hi.trans hlt, by omega, ?_⟩
      rw [← List.take_append_drop (bodyLength m dsdt - i) s5Name] at hname
      exact hname.left
  · intro hends k hk _
    refine (inTable_memcmpAt h hk).mpr fun i hi hholds => ?_
    by_contra hover
    refine hends ⟨k, hk, by omega, ?_⟩
    have htake : (s5Name.take i).take (bodyLength m dsdt - k) =
        s5Name.take (bodyLength m dsdt - k) := by
      rw [List.take_take, Nat.min_eq_left (by omega)]
    rw [← List.take_append_drop (bodyLength m dsdt - k) (s5Name.take i), htake] at hholds
    exact hholds.left

/-- What a search without a whole name in the body comes to. -/
theorem searchS5_of_none (hfirst : firstName m dsdt = none) (hends : ¬ EndsInName m dsdt) :
    ∃ s5Addr, searchS5 m (bodyLength m dsdt) (dsdt + 36) = (s5Addr, -1) := by
  refine ⟨_, (walk_searchS5 m).eq_end fun i hi hname => ?_⟩
  rw [Nat.one_mul] at hname
  rcases Nat.lt_or_ge (bodyLength m dsdt) (i + 4) with hover | hle
  · refine hends ⟨i, hi, by omega, ?_⟩
    rw [← List.take_append_drop (bodyLength m dsdt - i) (str "_S5_")] at hname
    exact hname.left
  · exact firstName_eq_none hfirst hle hname

/-! ### All of it -/

/-- What is read before the search. -/
theorem forall_readWord (h : 36 ≤ declared m dsdt) :
    Forall (InTable m dsdt) (m.readWord (dsdt + 4)) := by
  have hword : ∀ x, Within (dsdt + 4) 4 x → InTable m dsdt x := fun x hx =>
    Within.of_add (k := 4) hx (by omega)
  refine List.forall_mem_cons.mpr ⟨hword _ (Within.start (by decide)), ?_⟩
  refine List.forall_mem_cons.mpr ⟨hword _ (Within.add (k := 1) (by decide)), ?_⟩
  refine List.forall_mem_cons.mpr ⟨hword _ (Within.add (k := 2) (by decide)), ?_⟩
  exact List.forall_mem_singleton.mpr (hword _ (Within.add (k := 3) (by decide)))

/-- What is read from a name on. -/
theorem forall_name (h : 36 ≤ declared m dsdt) (hk : k < bodyLength m dsdt) :
    Forall (InTable m dsdt) (do
      if ← isNameAt m (bodyAt dsdt k) then
        return S5.found (← fromTablesAt m facp (bodyAt dsdt k))
      else return S5.parseError) ↔
    (isFront m (bodyAt dsdt k) = true → k + 4 < bodyLength m dsdt ∧
      (m (bodyAt dsdt k + 4) = 0x12 → k + byteB m (bodyAt dsdt k) < bodyLength m dsdt)) := by
  have hname : isName m (bodyAt dsdt k) = true ↔
      isFront m (bodyAt dsdt k) = true ∧ m (bodyAt dsdt k + 4) = 0x12 := by
    rw [isName_eq, Bool.and_eq_true, decide_eq_true_iff]
  have hbehind : InTable m dsdt (bodyAt dsdt k + 4) ↔ k + 4 < bodyLength m dsdt :=
    inTable_bodyAt h hk (i := 4) (by decide)
  have hdecode : Forall (InTable m dsdt) (fromTablesAt m facp (bodyAt dsdt k)) ↔
      k + byteB m (bodyAt dsdt k) < bodyLength m dsdt := by
    have hroom : ∀ i < 16, InTable m dsdt (bodyAt dsdt k + BitVec.ofNat 32 i) ↔
        i < bodyLength m dsdt - k := fun i hi => (inTable_bodyAt h hk hi).trans (by omega)
    rw [forall_fromTablesAt hroom]
    omega
  rw [forall_bind_iff, forall_isNameAt (inTable_before h hk (i := 1) (by decide))
    (inTable_before h hk (i := 2) (Nat.le_refl 2)), hbehind, forall_ite_iff,
    value_isNameAt, and_iff_left fun _ => forall_pure _, forall_bind_iff, hdecode, hname,
    and_iff_left (forall_pure _)]
  exact ⟨fun hall hfront => ⟨hall.1 hfront, fun hop => hall.2 ⟨hfront, hop⟩⟩,
    fun hall => ⟨fun hfront => (hall hfront).1, fun hname => (hall hname.1).2 hname.2⟩⟩

/-- **The search for the soft-off package stays inside the DSDT** exactly if the first whole name is
followed, as far as it is decoded, by bytes of the table, or there is none and the body does not end
in the beginning of one. -/
theorem findS5_inside_iff (m : Mem) (facp : Word) (h : 36 ≤ declared m (m.word (facp + 40))) :
    (∀ x ∈ (findS5 m facp).notes, InTable m (m.word (facp + 40)) x) ↔
      Inside m (m.word (facp + 40)) := by
  change Forall _ (findS5 m facp) ↔ _
  rw [findS5, forall_bind_iff, and_iff_right (forall_readWord h), forall_bind_iff,
    value_searchS5At, value_readWord, ← bodyLength, Inside]
  cases hfirst : firstName m (m.word (facp + 40)) with
  | some k =>
    obtain ⟨hle, hname, hbefore⟩ := firstName_eq_some hfirst
    have hsearch := searchS5_eq (n := bodyLength m (m.word (facp + 40))) (by omega) hbefore hname
    have hleft : ((bodyLength m (m.word (facp + 40)) - k - 1 : ℕ) : ℤ) > 0 := by omega
    rw [and_iff_right (forall_search_of_some h hfirst), hsearch]
    dsimp only
    rw [if_pos hleft]
    exact forall_name h (by omega)
  | none =>
    rw [forall_search_of_none h hfirst]
    refine and_iff_left_of_imp fun hends => ?_
    obtain ⟨s5Addr, hsearch⟩ := searchS5_of_none hfirst hends
    rw [hsearch]
    exact forall_pure _

/-! ### A body that ends in an underscore -/

/-- A pointer to a DSDT, as at the end of an FACP, and a DSDT whose body is `Scope(_SB_) {}`. -/
def scopeImage : Mem := SoftOff.image
  (List.replicate 40 0 ++ bytes32 0xE002C ++ SoftOff.header "DSDT" 42 0x3E ++
    [0x10, 0x05] ++ str "_SB_")

theorem declared_scopeImage : declared scopeImage (scopeImage.word (0xE0000 + 40)) = 42 := by
  decide +kernel

theorem findS5_inside_scopeImage :
    (∀ x ∈ (findS5 scopeImage 0xE0000).notes,
        InTable scopeImage (scopeImage.word (0xE0000 + 40)) x) ↔
      Inside scopeImage (scopeImage.word (0xE0000 + 40)) :=
  findS5_inside_iff scopeImage 0xE0000 (by rw [declared_scopeImage]; decide)

/-- The comparison at its last byte reads the one behind it. -/
theorem not_findS5_inside : ¬ ∀ (m : Mem) (facp : Word), 36 ≤ declared m (m.word (facp + 40)) →
    Header m (m.word (facp + 40)) (str "DSDT") →
      ∀ x ∈ (findS5 m facp).notes, InTable m (m.word (facp + 40)) x := by
  intro hall
  have hlength : 36 ≤ declared scopeImage (scopeImage.word (0xE0000 + 40)) := by
    rw [declared_scopeImage]
    decide
  have hheader : Header scopeImage (scopeImage.word (0xE0000 + 40)) (str "DSDT") :=
    ⟨by decide +kernel, by decide +kernel⟩
  have hread := hall scopeImage 0xE0000 hlength hheader (0xE002C + 42) (by decide +kernel)
  rw [InTable, declared_scopeImage] at hread
  exact absurd hread (by decide +kernel)

end Inside

end Acpi

end HuskyKernel
