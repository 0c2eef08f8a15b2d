import HuskyKernel.Logic.Walk
import HuskyKernel.Drivers.Acpi

/-!
# Drivers/SoftOff — decoding the soft-off package

`SoftOff m` is a memory image in which everything `initAcpi` looks for is in place: an RSDP, an
RSDT, the FACP at any index of it, a DSDT, and in its body a definition of `\_S5` in any of its
encodings (`Package`).  `decoded_iff`: `initAcpi` finds it and decodes it, as long as the lengths
it keeps in `int`s are not negative there.
-/

namespace HuskyKernel

open Mem Wp

namespace Acpi

variable {m : Mem}

/-! ## Comparing and summing -/

theorem memcmp_eq_zero_iff : ∀ {s t : List Byte}, s.length = t.length → (memcmp s t = 0 ↔ s = t)
  | [], [], _ => by simp [memcmp]
  | c :: s, d :: t, h => by
      rw [memcmp]
      by_cases hcd : c = d
      · rw [if_neg (not_not.mpr hcd), memcmp_eq_zero_iff (Nat.succ.inj h), hcd, List.cons_inj_right]
      · rw [if_pos hcd]
        have hne : c.toNat ≠ d.toNat := fun h => hcd (UInt8.toNat_inj.mp h)
        refine iff_of_false (fun h0 => hne ?_) fun heq => hcd (List.cons_eq_cons.mp heq).1
        omega

theorem memcmp_load_iff {a : Word} (bs : List Byte) :
    memcmp (m.load a bs.length) bs = 0 ↔ Holds m a bs :=
  memcmp_eq_zero_iff (length_load _ _)

/-- The checksum of a run of bytes is their sum. -/
theorem checksum_eq : ∀ (n : ℕ) (a : Word) (check : Byte),
    checksum m n a check = check + m.sum a n
  | 0, a, check => (UInt8.add_zero check).symm
  | n + 1, a, check => by
      rw [checksum, checksum_eq n, sum_succ, UInt8.add_assoc]

/-! ## Headers -/

/-- The bytes a table's checksum is taken over: `len` is an `int`, and a length of 2 GiB or more is
negative. -/
def checkedLength (length : Word) : ℕ := length.toInt.toNat

theorem checkedLength_of_lt {length : Word} (h : length.toNat < 2 ^ 31) :
    checkedLength length = length.toNat := by
  rw [checkedLength, BitVec.toInt_eq_toNat_of_lt (by omega), Int.toNat_natCast]

theorem checkedLength_of_le {length : Word} (h : 2 ^ 31 ≤ length.toNat) :
    checkedLength length = 0 := by
  rw [checkedLength, BitVec.toInt_eq_toNat_cond]
  have := length.isLt
  rw [if_neg (by omega)]
  omega

/-- The length of a table without its header, where an `int` holds it. -/
theorem toInt_sub_header (length : Word) (h : 36 ≤ length.toNat) :
    (length - 36).toInt.toNat = if length.toNat < 2 ^ 31 + 36 then length.toNat - 36 else 0 := by
  have hsub : (length - 36).toNat = length.toNat - 36 := BitVec.toNat_sub_of_le h
  have hlt := length.isLt
  rw [BitVec.toInt_eq_toNat_cond, hsub]
  split_ifs <;> omega

/-- A valid header of the table at `ptr`. -/
structure Header (m : Mem) (ptr : Word) (sig : List Byte) : Prop where
  signature : Holds m ptr sig
  checksum : m.sum ptr (checkedLength (m.word (ptr + 4))) = 0

/-- A valid RSDP that names a table. -/
structure Rsdp (m : Mem) (ptr rsdt : Word) : Prop where
  signature : Holds m ptr (str "RSD PTR ")
  checksum : m.sum ptr 20 = 0
  address : m.word (ptr + 16) = rsdt
  not_null : rsdt ≠ 0

/-- Below 2 GiB a table is valid if all of it sums to zero… -/
theorem header_iff_of_lt {ptr : Word} {sig : List Byte} (h : (m.word (ptr + 4)).toNat < 2 ^ 31) :
    Header m ptr sig ↔ Holds m ptr sig ∧ m.sum ptr (m.word (ptr + 4)).toNat = 0 := by
  rw [← checkedLength_of_lt h]
  exact ⟨fun hvalid => ⟨hvalid.signature, hvalid.checksum⟩, fun hvalid => ⟨hvalid.1, hvalid.2⟩⟩

/-- …and from there on the signature is enough. -/
theorem header_iff_of_le {ptr : Word} {sig : List Byte} (h : 2 ^ 31 ≤ (m.word (ptr + 4)).toNat) :
    Header m ptr sig ↔ Holds m ptr sig :=
  ⟨Header.signature, fun hsig => ⟨hsig, by rw [checkedLength_of_le h]; rfl⟩⟩

theorem acpiCheckHeader_eq_zero_iff {ptr : Word} {sig : List Byte} (hsig : sig.length = 4) :
    acpiCheckHeader m ptr sig = 0 ↔ Header m ptr sig := by
  have hcmp : memcmp (m.load ptr 4) sig = 0 ↔ Holds m ptr sig := by
    rw [← hsig]
    exact memcmp_load_iff sig
  have hsum := checksum_eq (m := m) (checkedLength (m.word (ptr + 4))) ptr 0
  rw [UInt8.zero_add] at hsum
  rw [acpiCheckHeader]
  by_cases hsig : memcmp (m.load ptr 4) sig = 0
  · rw [if_pos hsig]
    dsimp only
    rw [show (m.word (ptr + 4)).toInt.toNat = checkedLength (m.word (ptr + 4)) from rfl, hsum]
    by_cases hzero : m.sum ptr (checkedLength (m.word (ptr + 4))) = 0
    · rw [if_pos hzero]
      exact iff_of_true rfl ⟨hcmp.mp hsig, hzero⟩
    · rw [if_neg hzero]
      exact iff_of_false (by decide) fun h => hzero h.checksum
  · rw [if_neg hsig]
    exact iff_of_false (by decide) fun h => hsig (hcmp.mpr h.signature)

theorem memcmp_rsdp_iff {ptr : Word} :
    memcmp (str "RSD PTR ") (m.load ptr 8) = 0 ↔ Holds m ptr (str "RSD PTR ") := by
  have hlen : (str "RSD PTR ").length = 8 := by decide
  rw [memcmp_eq_zero_iff (hlen.trans (length_load 8 ptr).symm), Holds, hlen, eq_comm]

/-- `acpiCheckRSDPtr` answers the address a valid RSDP names. -/
theorem acpiCheckRSDPtr_eq {ptr rsdt : Word} (h : Rsdp m ptr rsdt) :
    acpiCheckRSDPtr m ptr = rsdt := by
  have hsig : memcmp (str "RSD PTR ") (m.load ptr 8) = 0 :=
    memcmp_rsdp_iff.mpr h.signature
  have hsum : checksum m 20 ptr 0 = 0 := by
    rw [checksum_eq, UInt8.zero_add, h.checksum]
  rw [acpiCheckRSDPtr, if_pos hsig, if_pos hsum, h.address]

/-- …and NULL, or what is not a table, elsewhere. -/
theorem acpiCheckRSDPtr_eq_zero {ptr : Word} (h : ∀ rsdt, ¬ Rsdp m ptr rsdt) :
    acpiCheckRSDPtr m ptr = 0 := by
  by_contra hne
  rw [acpiCheckRSDPtr] at hne
  by_cases hsig : memcmp (str "RSD PTR ") (m.load ptr 8) = 0
  · rw [if_pos hsig] at hne
    by_cases hsum : checksum m 20 ptr 0 = 0
    · rw [if_pos hsum] at hne
      refine h _ ⟨memcmp_rsdp_iff.mp hsig, ?_, rfl, hne⟩
      rwa [checksum_eq, UInt8.zero_add] at hsum
    · rw [if_neg hsum] at hne
      exact hne rfl
  · rw [if_neg hsig] at hne
    exact hne rfl

/-! ## The package -/

/-- The encodings of a byte as an element of a package. -/
inductive Encodes : Byte → List Byte → Prop
  | zeroOp : Encodes 0 [0x00]
  | oneOp : Encodes 1 [0x01]
  | bytePrefix (v : Byte) : Encodes v [0x0A, v]

/-- A `PkgLength`: the top two bits of its lead byte count the bytes behind it. -/
structure PkgLength where
  lead : Byte
  rest : List Byte
  length_rest : rest.length = (lead >>> 6).toNat

/-- `Name(_S5_, Package() { a, b, … })`, or `Name(\_S5_, …)`, as far as it is decoded. -/
structure Package where
  root : Bool
  pkgLength : PkgLength
  numElements : Byte
  a : Byte
  b : Byte
  codeA : List Byte
  codeB : List Byte
  encodesA : Encodes a codeA
  encodesB : Encodes b codeB

/-- What is in front of the name. -/
def Package.front (p : Package) : List Byte := if p.root then [0x08, chr '\\'] else [0x08]

/-- The name and all behind it. -/
def Package.back (p : Package) : List Byte :=
  str "_S5_" ++ (0x12 :: p.pkgLength.lead :: (p.pkgLength.rest ++
    (p.numElements :: (p.codeA ++ p.codeB))))

section Package

variable {p : Package} {a : Word} {v : Byte} {code : List Byte}

/-- An element is decoded, and the next one is right behind it. -/
theorem Encodes.decode (h : Encodes v code) (ha : Holds m a code) :
    m (skipBytePrefix m a) = v ∧ skipBytePrefix m a + 1 = a + BitVec.ofNat 32 code.length := by
  cases h with
  | zeroOp =>
    obtain ⟨h0, -⟩ := holds_cons.mp ha
    rw [skipBytePrefix, if_neg (by rw [h0]; decide)]
    exact ⟨h0, rfl⟩
  | oneOp =>
    obtain ⟨h0, -⟩ := holds_cons.mp ha
    rw [skipBytePrefix, if_neg (by rw [h0]; decide)]
    exact ⟨h0, rfl⟩
  | bytePrefix =>
    obtain ⟨h0, h1⟩ := holds_cons.mp ha
    rw [skipBytePrefix, if_pos h0]
    exact ⟨(holds_cons.mp h1).1, BitVec.add_assoc ..⟩

theorem pkgLengthSize_eq (lead : Byte) :
    pkgLengthSize lead = BitVec.ofNat 32 ((lead >>> 6).toNat + 2) := by
  have hall : ∀ i : Fin 256, pkgLengthSize (UInt8.ofBitVec (BitVec.ofFin i)) =
      BitVec.ofNat 32 (((UInt8.ofBitVec (BitVec.ofFin i)) >>> 6).toNat + 2) := by
    decide +kernel
  exact hall lead.toBitVec.toFin

/-- `*(S5Addr)<<10` cut to 16 bits, whatever the sign of the `char`. -/
theorem toNat_slpTyp (a : Word) : (slpTyp m a).toNat = (m a).toNat <<< 10 % 2 ^ 16 := by
  have hall : ∀ i : Fin 256,
      (((BitVec.ofFin i : BitVec 8).signExtend 32 <<< 10).setWidth 16).toNat =
        (UInt8.ofBitVec (BitVec.ofFin i)).toNat <<< 10 % 2 ^ 16 := by
    decide +kernel
  exact hall (m a).toBitVec.toFin

/-- What lies behind the name. -/
structure Package.Behind (p : Package) (m : Mem) (s5Addr : Word) : Prop where
  packageOp : m (s5Addr + 4) = 0x12
  lead : m (s5Addr + 5) = p.pkgLength.lead
  codeA : Holds m (s5Addr + BitVec.ofNat 32 (p.pkgLength.rest.length + 7)) p.codeA
  codeB : Holds m (s5Addr + BitVec.ofNat 32 (p.pkgLength.rest.length + 7) +
    BitVec.ofNat 32 p.codeA.length) p.codeB

theorem Package.behind {s5Addr : Word} (h : Holds m s5Addr p.back) : p.Behind m s5Addr := by
  have hlen : (str "_S5_").length = 4 := by decide
  obtain ⟨-, h⟩ := holds_append.mp h
  rw [hlen] at h
  obtain ⟨hop, h⟩ := holds_cons.mp h
  obtain ⟨hlead, h⟩ := holds_cons.mp h
  obtain ⟨-, h⟩ := holds_append.mp h
  obtain ⟨-, h⟩ := holds_cons.mp h
  have hpos : s5Addr + BitVec.ofNat 32 4 + 1 + 1 + BitVec.ofNat 32 p.pkgLength.rest.length + 1 =
      s5Addr + BitVec.ofNat 32 (p.pkgLength.rest.length + 7) := by
    bv_omega
  rw [hpos] at h
  obtain ⟨hA, hB⟩ := holds_append.mp h
  exact ⟨hop, by rwa [BitVec.add_assoc] at hlead, hA, hB⟩

/-- **Decoding undoes encoding**, for both elements. -/
theorem fromTables_package {s5Addr : Word} (h : p.Behind m s5Addr) (facp : Word) :
    (fromTables m facp s5Addr).slpTypA.toNat = p.a.toNat <<< 10 % 2 ^ 16 ∧
      (fromTables m facp s5Addr).slpTypB.toNat = p.b.toNat <<< 10 % 2 ^ 16 := by
  have hpos : s5Addr + 5 + pkgLengthSize (m (s5Addr + 5)) =
      s5Addr + BitVec.ofNat 32 (p.pkgLength.rest.length + 7) := by
    rw [h.lead, pkgLengthSize_eq, ← p.pkgLength.length_rest]
    bv_omega
  obtain ⟨ha, hnext⟩ := p.encodesA.decode h.codeA
  obtain ⟨hb, -⟩ := p.encodesB.decode h.codeB
  simp only [fromTables, toNat_slpTyp, hpos, hnext, ha, hb]
  exact ⟨trivial, trivial⟩

/-- What lies in front of the name makes it one. -/
theorem isName_package {a : Word} (hfront : Holds m a p.front)
    (h : p.Behind m (a + BitVec.ofNat 32 p.front.length)) :
    isName m (a + BitVec.ofNat 32 p.front.length) = true := by
  rw [isName, h.packageOp]
  cases hroot : p.root with
  | true =>
    have hf : p.front = [0x08, chr '\\'] := by
      rw [Package.front, hroot]
      rfl
    rw [hf] at hfront ⊢
    obtain ⟨h0, h1⟩ := holds_cons.mp hfront
    have hslash : m (a + BitVec.ofNat 32 2 - 1) = chr '\\' := by
      rw [show a + BitVec.ofNat 32 2 - 1 = a + 1 by bv_omega]
      exact (holds_cons.mp h1).1
    have hname : m (a + BitVec.ofNat 32 2 - 2) = 0x08 := by
      rw [show a + BitVec.ofNat 32 2 - 2 = a by bv_omega]
      exact h0
    rw [show [(0x08 : Byte), chr '\\'].length = 2 from rfl, hslash, hname]
    rfl
  | false =>
    have hf : p.front = [0x08] := by
      rw [Package.front, hroot]
      rfl
    rw [hf] at hfront ⊢
    have hname : m (a + BitVec.ofNat 32 1 - 1) = 0x08 := by
      rw [show a + BitVec.ofNat 32 1 - 1 = a by bv_omega]
      exact (holds_cons.mp hfront).1
    rw [show [(0x08 : Byte)].length = 1 from rfl, hname]
    rfl

end Package

/-! ## The searches -/

section Search

variable {a : Word}

theorem walk_searchS5 (m : Mem) :
    Walk (fun a => Holds m a (str "_S5_")) 1 (searchS5 m) (fun n a => (a, (n : ℤ))) where
  hit := fun _ _ h => if_pos ((memcmp_load_iff _).mpr h)
  miss := fun _ _ h => if_neg fun hcmp => h ((memcmp_load_iff _).mp hcmp)

theorem walk_searchRSDPtr (m : Mem) :
    Walk (fun a => ∃ rsdt, Rsdp m a rsdt) 0x10 (searchRSDPtr m) (fun _ a => m.word (a + 16)) where
  hit := by
    rintro n a ⟨rsdt, h⟩
    rw [searchRSDPtr, acpiCheckRSDPtr_eq h, h.address]
    exact if_pos h.not_null
  miss := by
    intro n a h
    rw [searchRSDPtr, acpiCheckRSDPtr_eq_zero fun rsdt hr => h ⟨rsdt, hr⟩]
    exact if_neg fun h0 => h0 rfl

/-- **The search for the package** ends at the first name. -/
theorem searchS5_eq {n k : ℕ} (hlt : k < n)
    (hfirst : ∀ i < k, ¬ Holds m (a + BitVec.ofNat 32 i) (str "_S5_"))
    (hk : Holds m (a + BitVec.ofNat 32 k) (str "_S5_")) :
    searchS5 m n a = (a + BitVec.ofNat 32 k, ((n - k - 1 : ℕ) : ℤ)) := by
  have hwalk := (walk_searchS5 m).eq_hit (a := a) hlt
  simp only [Nat.one_mul] at hwalk
  exact hwalk hfirst hk

/-- The search for the RSDP answers what the first valid one names. -/
theorem searchRSDPtr_eq {rsdt : Word} {n k : ℕ} (hlt : k < n)
    (hfirst : ∀ i < k, ∀ r, ¬ Rsdp m (a + BitVec.ofNat 32 (0x10 * i)) r)
    (hk : Rsdp m (a + BitVec.ofNat 32 (0x10 * k)) rsdt) : searchRSDPtr m n a = rsdt := by
  rw [(walk_searchRSDPtr m).eq_hit hlt (fun i hi => not_exists.mpr (hfirst i hi)) ⟨rsdt, hk⟩]
  exact hk.address

theorem searchRSDPtr_eq_zero {n : ℕ}
    (h : ∀ i < n, ∀ r, ¬ Rsdp m (a + BitVec.ofNat 32 (0x10 * i)) r) : searchRSDPtr m n a = 0 :=
  (walk_searchRSDPtr m).eq_end fun i hi => not_exists.mpr (h i hi)

/-- The `i`-th address an RSDP is looked for at. -/
def rsdpAddress (m : Mem) (i : ℕ) : Word :=
  if i < 0x2000 then 0x000E0000 + BitVec.ofNat 32 (0x10 * i)
  else ebda m + BitVec.ofNat 32 (0x10 * (i - 0x2000))

theorem acpiGetRSDPtr_eq {rsdt : Word} {k : ℕ} (hk : k < 0x2000 + 64)
    (hfirst : ∀ i < k, ∀ r, ¬ Rsdp m (rsdpAddress m i) r)
    (h : Rsdp m (rsdpAddress m k) rsdt) : acpiGetRSDPtr m = rsdt := by
  unfold acpiGetRSDPtr
  unfold rsdpAddress at h hfirst
  generalize hn : 0x2000 = n at *
  by_cases hbelow : k < n
  · rw [if_pos hbelow] at h
    have hsearch : searchRSDPtr m n 0x000E0000 = rsdt := by
      refine searchRSDPtr_eq hbelow (fun i hi r => ?_) h
      have hi' := hfirst i hi r
      rwa [if_pos (hi.trans hbelow)] at hi'
    rw [hsearch]
    exact if_pos h.not_null
  · rw [if_neg hbelow] at h
    have hnone : searchRSDPtr m n 0x000E0000 = 0 := by
      refine searchRSDPtr_eq_zero fun i hi r => ?_
      have hi' := hfirst i (by omega) r
      rwa [if_pos hi] at hi'
    have hsearch : searchRSDPtr m 64 (ebda m) = rsdt := by
      refine searchRSDPtr_eq (by omega) (fun i hi r => ?_) h
      have hi' := hfirst (n + i) (by omega) r
      rwa [if_neg (by omega), Nat.add_sub_cancel_left] at hi'
    rw [hnone, hsearch]
    exact if_neg fun h => h rfl

/-- The `i`-th entry of the RSDT. -/
def entry (m : Mem) (rsdt : Word) (i : ℕ) : Word := m.word (rsdt + 36 + BitVec.ofNat 32 (4 * i))

/-- What the loop does about the first FACP. -/
def atFacp (m : Mem) (facp : Word) : Driver ℤ := do
  if ← readFacp m facp then return 0
  else
    wrstr "no valid FACP present.\n"
    return -1

theorem walk_tableLoop (m : Mem) :
    Walk (fun ptr => Header m (m.word ptr) (str "FACP")) 4 (tableLoop m)
      (fun _ ptr => atFacp m (m.word ptr)) where
  hit := fun _ _ h => if_pos ((acpiCheckHeader_eq_zero_iff (by decide)).mpr h)
  miss := fun _ _ h => if_neg fun hcheck => h ((acpiCheckHeader_eq_zero_iff (by decide)).mp hcheck)

/-- **The walk** ends at the first valid FACP. -/
theorem tableLoop_eq {rsdt : Word} {n j : ℕ} (hlt : j < n)
    (hfirst : ∀ i < j, ¬ Header m (entry m rsdt i) (str "FACP"))
    (hj : Header m (entry m rsdt j) (str "FACP")) :
    tableLoop m n (rsdt + 36) = atFacp m (entry m rsdt j) :=
  (walk_tableLoop m).eq_hit hlt hfirst hj

end Search

/-! ## The FACP -/

section Facp

variable {facp s5Addr : Word} {left : ℤ} {s : State}

theorem atFacp_of_found (h : Header m (m.word (facp + 40)) (str "DSDT"))
    (hsearch : searchS5 m (m.word (m.word (facp + 40) + 4) - 36).toInt.toNat
      (m.word (facp + 40) + 36) = (s5Addr, left))
    (hleft : 0 < left) (hname : isName m s5Addr = true) :
    atFacp m facp s = .ok 0 ⟨fromTables m facp s5Addr, s.log⟩ := by
  have hread : readFacp m facp s = .ok true ⟨fromTables m facp s5Addr, s.log⟩ := by
    rw [readFacp, if_pos ((acpiCheckHeader_eq_zero_iff (by decide)).mpr h), hsearch]
    dsimp only
    rw [if_pos hleft, if_pos hname]
    rfl
  rw [atFacp, bind_of_ok hread]
  rfl

theorem atFacp_of_absent
    (hsearch : searchS5 m (m.word (m.word (facp + 40) + 4) - 36).toInt.toNat
      (m.word (facp + 40) + 36) = (s5Addr, left)) (hleft : ¬ 0 < left) :
    ∃ u, atFacp m facp s = .ok (-1) u := by
  have hread : ∃ u, readFacp m facp s = .ok false u := by
    rw [readFacp, hsearch]
    dsimp only
    rw [if_neg hleft]
    by_cases h : acpiCheckHeader m (m.word (facp + 40)) (str "DSDT") = 0
    · rw [if_pos h]
      exact ⟨_, rfl⟩
    · rw [if_neg h]
      exact ⟨_, rfl⟩
  obtain ⟨u, hu⟩ := hread
  rw [atFacp, bind_of_ok hu]
  exact ⟨_, rfl⟩

end Facp

/-! ## An image with a soft-off package -/

/-- An image in which everything is in place. -/
structure SoftOff (m : Mem) where
  rsdp : ℕ
  rsdt : Word
  index : ℕ
  start : ℕ
  package : Package
  /-- The first valid RSDP names the RSDT. -/
  rsdp_lt : rsdp < 0x2000 + 64
  rsdp_first : ∀ i < rsdp, ∀ r, ¬ Rsdp m (rsdpAddress m i) r
  rsdp_valid : Rsdp m (rsdpAddress m rsdp) rsdt
  rsdt_valid : Header m rsdt (str "RSDT")
  /-- The first valid FACP of the RSDT. -/
  facp_inside : 36 + 4 * (index + 1) ≤ (m.word (rsdt + 4)).toNat
  facp_first : ∀ i < index, ¬ Header m (entry m rsdt i) (str "FACP")
  facp_valid : Header m (entry m rsdt index) (str "FACP")
  dsdt_valid : Header m (m.word (entry m rsdt index + 40)) (str "DSDT")
  /-- The package is in the body of the DSDT, and no such name is before it. -/
  package_inside : 36 + (start + (package.front ++ package.back).length) ≤
    (m.word (m.word (entry m rsdt index + 40) + 4)).toNat
  package_first : ∀ i < start + package.front.length,
    ¬ Holds m (m.word (entry m rsdt index + 40) + 36 + BitVec.ofNat 32 i) (str "_S5_")
  package_valid : Holds m (m.word (entry m rsdt index + 40) + 36 + BitVec.ofNat 32 start)
    (package.front ++ package.back)

namespace SoftOff

/-- The FACP. -/
def facp (t : SoftOff m) : Word := entry m t.rsdt t.index

/-- The DSDT. -/
def dsdt (t : SoftOff m) : Word := m.word (t.facp + 40)

/-- The name of the package. -/
def s5Addr (t : SoftOff m) : Word :=
  t.dsdt + 36 + BitVec.ofNat 32 (t.start + t.package.front.length)

/-- What the driver is to know of the image. -/
structure Decoded (t : SoftOff m) (g : Acpi) : Prop where
  slpTypA : g.slpTypA.toNat = t.package.a.toNat <<< 10 % 2 ^ 16
  slpTypB : g.slpTypB.toNat = t.package.b.toNat <<< 10 % 2 ^ 16
  pm1aCnt : g.pm1aCnt = m.word (t.facp + 64)
  pm1bCnt : g.pm1bCnt = m.word (t.facp + 68)
  smiCmd : g.smiCmd = m.word (t.facp + 48)

variable {t : SoftOff m} {s : State}

theorem holds_back (t : SoftOff m) : Holds m t.s5Addr t.package.back := by
  obtain ⟨-, hback⟩ := holds_append.mp t.package_valid
  rwa [BitVec.add_assoc, ← BitVec.ofNat_add] at hback

theorem holds_s5 (t : SoftOff m) : Holds m t.s5Addr (str "_S5_") :=
  (holds_append.mp t.holds_back).1

theorem package_behind (t : SoftOff m) : t.package.Behind m t.s5Addr := Package.behind t.holds_back

theorem isName_s5Addr (t : SoftOff m) : isName m t.s5Addr = true := by
  obtain ⟨hfront, -⟩ := holds_append.mp t.package_valid
  have hname := isName_package hfront
  rw [BitVec.add_assoc, ← BitVec.ofNat_add] at hname
  exact hname t.package_behind

/-- What is left of the DSDT, from the name on. -/
theorem length_lt (t : SoftOff m) :
    36 + (t.start + t.package.front.length) + 1 < (m.word (t.dsdt + 4)).toNat := by
  have hinside := t.package_inside
  have hback : 4 ≤ t.package.back.length := by
    rw [Package.back, List.length_append]
    exact Nat.le_add_right 4 _
  rw [List.length_append] at hinside
  exact Nat.lt_of_lt_of_le (by omega) hinside

/-- The RSDT is found. -/
theorem initAcpi_eq_tableLoop (t : SoftOff m) : initAcpi m =
    tableLoop m (((m.word (t.rsdt + 4)).toInt - 36).tdiv 4).toNat (t.rsdt + 36) := by
  rw [initAcpi, acpiGetRSDPtr_eq t.rsdp_lt t.rsdp_first t.rsdp_valid]
  exact if_pos ⟨t.rsdp_valid.not_null, (acpiCheckHeader_eq_zero_iff (by decide)).mpr t.rsdt_valid⟩

/-- **The walk up to the FACP**: with an RSDT below 2 GiB, it is found. -/
theorem initAcpi_eq (t : SoftOff m) (h : (m.word (t.rsdt + 4)).toNat < 2 ^ 31) :
    initAcpi m = atFacp m t.facp := by
  have hinside := t.facp_inside
  have hentrys : t.index < (((m.word (t.rsdt + 4)).toInt - 36).tdiv 4).toNat := by
    rw [BitVec.toInt_eq_toNat_of_lt (by omega), Int.tdiv_eq_ediv_of_nonneg (by omega)]
    omega
  rw [t.initAcpi_eq_tableLoop]
  exact tableLoop_eq hentrys t.facp_first t.facp_valid

/-- At 2 GiB or more there are no entries. -/
theorem initAcpi_of_rsdt (t : SoftOff m) (h : 2 ^ 31 ≤ (m.word (t.rsdt + 4)).toNat) :
    ∃ u, initAcpi m s = .ok (-1) u := by
  have hentrys : (((m.word (t.rsdt + 4)).toInt - 36).tdiv 4).toNat = 0 := by
    have hnegative : (m.word (t.rsdt + 4)).toInt < 0 := by
      have := (m.word (t.rsdt + 4)).isLt
      rw [BitVec.toInt_eq_toNat_cond, if_neg (by omega)]
      omega
    have hdiv := Int.tdiv_nonneg (a := -((m.word (t.rsdt + 4)).toInt - 36)) (b := 4)
      (by omega) (by decide)
    rw [Int.neg_tdiv] at hdiv
    omega
  rw [t.initAcpi_eq_tableLoop, hentrys]
  exact ⟨_, rfl⟩

/-- **The search in the DSDT**: with `dsdtLength` not negative, the package is found. -/
theorem atFacp_eq (t : SoftOff m) (h : (m.word (t.dsdt + 4)).toNat < 2 ^ 31 + 36) :
    atFacp m t.facp s = .ok 0 ⟨fromTables m t.facp t.s5Addr, s.log⟩ := by
  have hlt := t.length_lt
  have hlength : (m.word (t.dsdt + 4) - 36).toInt.toNat = (m.word (t.dsdt + 4)).toNat - 36 :=
    (toInt_sub_header _ (by omega)).trans (if_pos h)
  have hsearch := searchS5_eq (m := m)
    (n := (m.word (t.dsdt + 4)).toNat - 36) (by omega) t.package_first t.holds_s5
  refine atFacp_of_found t.dsdt_valid (hlength ▸ hsearch) ?_ t.isName_s5Addr
  omega

/-- From there on the driver sees none of it. -/
theorem atFacp_of_dsdt (t : SoftOff m) (h : 2 ^ 31 + 36 ≤ (m.word (t.dsdt + 4)).toNat) :
    ∃ u, atFacp m t.facp s = .ok (-1) u := by
  have hlength : (m.word (t.dsdt + 4) - 36).toInt.toNat = 0 :=
    (toInt_sub_header _ (by omega)).trans (if_neg (not_lt.mpr h))
  have hsearch : searchS5 m (m.word (t.dsdt + 4) - 36).toInt.toNat (t.dsdt + 36) =
      (t.dsdt + 36, -1) := by
    rw [hlength]
    rfl
  exact atFacp_of_absent hsearch (by decide)

/-- **The soft-off package is decoded** if and only if the lengths kept in `int`s are not negative:
the RSDT's below 2 GiB, and the DSDT's without its header. -/
theorem decoded_iff (t : SoftOff m) (s : State) :
    (∃ u, initAcpi m s = .ok 0 u ∧ t.Decoded u.acpi) ↔
      (m.word (t.rsdt + 4)).toNat < 2 ^ 31 ∧ (m.word (t.dsdt + 4)).toNat < 2 ^ 31 + 36 := by
  constructor
  · rintro ⟨u, hu, -⟩
    by_contra hlength
    have hfailed : ∃ u, initAcpi m s = .ok (-1) u := by
      by_cases hrsdt : (m.word (t.rsdt + 4)).toNat < 2 ^ 31
      · rw [t.initAcpi_eq hrsdt]
        exact t.atFacp_of_dsdt (by omega)
      · exact t.initAcpi_of_rsdt (by omega)
    obtain ⟨u', hu'⟩ := hfailed
    rw [hu] at hu'
    cases hu'
  · rintro ⟨hrsdt, hdsdt⟩
    obtain ⟨ha, hb⟩ := fromTables_package t.package_behind t.facp
    refine ⟨⟨fromTables m t.facp t.s5Addr, s.log⟩, ?_, ha, hb, rfl, rfl, rfl⟩
    rw [t.initAcpi_eq hrsdt, t.atFacp_eq hdsdt]

/-! ## A DSDT of more than 2 GiB -/

section Image

/-- Tables at the start of the search, and nothing else in memory. -/
def image (tables : List Byte) : Mem := fun a => tables.getD (a - 0xE0000).toNat 0

/-- A header, with its checksum. -/
def header (sig : String) (length : Word) (check : Byte) : List Byte :=
  str sig ++ bytes32 length ++ [1, check] ++ List.replicate 26 0

/-- `Name(\_S5_, Package() { 5, 0, … })`. -/
def package50 : Package :=
  ⟨true, ⟨0x06, [], rfl⟩, 2, 5, 0, [0x0A, 5], [0x00], .bytePrefix 5, .zeroOp⟩

/-- An RSDP, an RSDT of one entry, an FACP and a DSDT, one behind the other. -/
def tables (length : Word) (check : Byte) : List Byte :=
  str "RSD PTR " ++ [0xBF, 0, 0, 0, 0, 0, 0, 0] ++ bytes32 0xE0014 ++
  header "RSDT" 40 0x50 ++ bytes32 0xE003C ++
  header "FACP" 90 0x3E ++ List.replicate 4 0 ++ bytes32 0xE0096 ++ List.replicate 4 0 ++
    bytes32 0xB2 ++ [0xF0, 0xF1] ++ List.replicate 10 0 ++ bytes32 0x1004 ++
    List.replicate 21 0 ++ [2] ++
  header "DSDT" length check ++ package50.front ++ package50.back

example : (after (initAcpi (image (tables 60 0xC1)))
    ⟨⟨0, 0, 0, 0, 0, 0, 0, 0, 0, 0⟩, []⟩).acpi.slpTypA.toNat = 5 <<< 10 := by decide +kernel

/-- An image with a DSDT of 2 GiB and 64 bytes. -/
def bigImage : Mem := image (tables 0x80000040 0x3D)

/-- Everything is in place in it. -/
def big : SoftOff bigImage where
  rsdp := 0
  rsdt := 0xE0014
  index := 0
  start := 0
  package := package50
  rsdp_lt := by decide
  rsdp_first := fun _ hi => absurd hi (Nat.not_lt_zero _)
  rsdp_valid := ⟨by decide +kernel, by decide +kernel, by decide +kernel, by decide⟩
  rsdt_valid := ⟨by decide +kernel, by decide +kernel⟩
  facp_inside := by decide +kernel
  facp_first := fun _ hi => absurd hi (Nat.not_lt_zero _)
  facp_valid := ⟨by decide +kernel, by decide +kernel⟩
  dsdt_valid := (header_iff_of_le (by decide +kernel)).mpr (by decide +kernel)
  package_inside := by decide +kernel
  package_first := by decide +kernel
  package_valid := by decide +kernel

theorem length_big : (bigImage.word (big.dsdt + 4)).toNat = 0x80000040 := by decide +kernel

/-- The checksum of the whole DSDT is right as well. -/
theorem sum_big : bigImage.sum big.dsdt 0x80000040 = 0 := by
  have hdsdt : big.dsdt = 0xE0096 := by decide +kernel
  have hlen : (tables 0x80000040 0x3D).length = 198 := by decide +kernel
  have htables : bigImage.sum 0xE0096 48 = 0 := by decide +kernel
  have hrest : bigImage.sum (0xE0096 + BitVec.ofNat 32 48) 0x80000010 = 0 := by
    refine sum_eq_zero fun i hi => ?_
    have hpos : (0xE0096 + BitVec.ofNat 32 48 + BitVec.ofNat 32 i - 0xE0000).toNat = 198 + i := by
      bv_omega
    rw [bigImage, image, hpos]
    exact List.getD_eq_default _ _ (hlen.trans_le (Nat.le_add_right 198 i))
  rw [hdsdt, sum_add 48 0x80000010, htables, hrest]
  rfl

/-- **It is not decoded**, though every table of it is valid. -/
theorem not_decoded : bigImage.sum big.dsdt (bigImage.word (big.dsdt + 4)).toNat = 0 ∧
    ∀ s, ¬ ∃ u, initAcpi bigImage s = .ok 0 u ∧ big.Decoded u.acpi := by
  refine ⟨length_big.symm ▸ sum_big, fun s hdecoded => ?_⟩
  obtain ⟨u, hu, -⟩ := hdecoded
  obtain ⟨u', hu'⟩ := big.atFacp_of_dsdt (s := s) (by rw [length_big]; decide)
  rw [big.initAcpi_eq (by decide +kernel), hu'] at hu
  cases hu

end Image

end SoftOff

end Acpi

end HuskyKernel
