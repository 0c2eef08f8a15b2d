import HuskyKernel.Drivers.SoftOff

/-!
# Drivers/Tables — which tables are accepted

`acpiGetRSDPtr` goes by the first valid RSDP, over the two ranges it may lie in
(`acpiGetRSDPtr_first`).  `acpiCheckHeader` goes by the length a table declares, whatever it is: the
length is cast to an `int` and not compared with that of a header, so the bytes summed up may be
none at all (`checkHeader_iff`).
-/

namespace HuskyKernel

open Mem

namespace Acpi

variable {m : Mem}

/-! ## The RSDP -/

/-- The segment of the EBDA. -/
def ebdaSegment (m : Mem) : ℕ := (m.word16 0x40E).toNat

/-- The addresses an RSDP may lie at, in the order they are looked at. -/
def candidates (m : Mem) : List Word :=
  (List.range 0x2000).map (fun i => 0xE0000 + BitVec.ofNat 32 (0x10 * i)) ++
    (List.range 64).map fun i => BitVec.ofNat 32 (0x10 * ebdaSegment m) + BitVec.ofNat 32 (0x10 * i)

/-- A valid RSDP that names a table. -/
def IsRsdp (m : Mem) (a : Word) : Prop :=
  Holds m a (str "RSD PTR ") ∧ m.sum a 20 = 0 ∧ m.word (a + 16) ≠ 0

instance (m : Mem) (a : Word) : Decidable (IsRsdp m a) := inferInstanceAs (Decidable (_ ∧ _ ∧ _))

/-- The table named by the first RSDP among some addresses, or NULL. -/
def named (m : Mem) (as : List Word) : Word :=
  ((as.find? fun a => IsRsdp m a).map fun a => m.word (a + 16)).getD 0

theorem isRsdp_iff {a : Word} : IsRsdp m a ↔ Rsdp m a (m.word (a + 16)) :=
  ⟨fun h => ⟨h.1, h.2.1, rfl, h.2.2⟩, fun h => ⟨h.signature, h.checksum, h.not_null⟩⟩

theorem acpiCheckRSDPtr_eq_ite (m : Mem) (a : Word) :
    acpiCheckRSDPtr m a = if IsRsdp m a then m.word (a + 16) else 0 := by
  by_cases h : IsRsdp m a
  · rw [if_pos h, acpiCheckRSDPtr_eq (isRsdp_iff.mp h)]
  · rw [if_neg h]
    refine acpiCheckRSDPtr_eq_zero fun rsdt hr => h (isRsdp_iff.mpr ?_)
    rwa [hr.address]

theorem named_cons (a : Word) (as : List Word) :
    named m (a :: as) = if IsRsdp m a then m.word (a + 16) else named m as := by
  by_cases h : IsRsdp m a <;> simp [named, h]

theorem named_eq_zero_iff {as : List Word} : named m as = 0 ↔ ∀ a ∈ as, ¬ IsRsdp m a := by
  induction as with
  | nil => exact iff_of_true rfl fun a ha => absurd ha List.not_mem_nil
  | cons a as ih =>
    rw [named_cons, List.forall_mem_cons]
    by_cases h : IsRsdp m a
    · rw [if_pos h]
      exact iff_of_false h.2.2 fun hnot => hnot.1 h
    · rw [if_neg h, ih]
      exact (and_iff_right h).symm

theorem named_append (as bs : List Word) :
    named m (as ++ bs) = if named m as ≠ 0 then named m as else named m bs := by
  induction as with
  | nil => exact (if_neg fun h => h rfl).symm
  | cons a as ih =>
    rw [List.cons_append, named_cons, named_cons, ih]
    by_cases h : IsRsdp m a
    · rw [if_pos h, if_pos h, if_pos h.2.2]
    · rw [if_neg h, if_neg h]

/-- **One range**: the search goes by the first RSDP in it. -/
theorem searchRSDPtr_eq_named (m : Mem) : ∀ (n : ℕ) (a : Word),
    searchRSDPtr m n a = named m ((List.range n).map fun i => a + BitVec.ofNat 32 (0x10 * i))
  | 0, _ => rfl
  | n + 1, a => by
      have hrest : (List.range n).map ((fun i => a + BitVec.ofNat 32 (0x10 * i)) ∘ Nat.succ) =
          (List.range n).map fun i => a + 0x10 + BitVec.ofNat 32 (0x10 * i) :=
        List.map_congr_left fun i _ => Walk.add_succ 0x10 i a
      rw [List.range_succ_eq_map, List.map_cons, List.map_map, hrest, Nat.mul_zero,
        BitVec.add_zero, named_cons, ← searchRSDPtr_eq_named m n (a + 0x10), searchRSDPtr,
        acpiCheckRSDPtr_eq_ite]
      by_cases h : IsRsdp m a
      · rw [if_pos h, if_pos h, if_pos h.2.2]
      · rw [if_neg h, if_neg h, if_neg fun h0 => h0 rfl]

/-- **The EBDA**: the sign of its segment does not matter. -/
theorem ebda_eq (m : Mem) : ebda m = BitVec.ofNat 32 (0x10 * ebdaSegment m) := by
  have hmask : (0x000FFFFF : Word).toNat = 2 ^ 20 - 1 := rfl
  have hlt := (m.word16 0x40E).isLt
  refine BitVec.eq_of_toNat_eq ?_
  rw [ebda, BitVec.toNat_and, hmask, Nat.and_two_pow_sub_one_eq_mod, BitVec.toNat_mul,
    BitVec.toNat_signExtend, BitVec.toNat_setWidth, BitVec.toNat_ofNat, ebdaSegment]
  simp only [BitVec.ofNat_eq_ofNat, BitVec.toNat_ofNat]
  split_ifs <;> omega

/-- **The RSDT is found by the first valid RSDP**, below 1 MB or in the EBDA, and not at all if and
only if there is none. -/
theorem acpiGetRSDPtr_first (m : Mem) : acpiGetRSDPtr m = named m (candidates m) ∧
    (acpiGetRSDPtr m = 0 ↔ ∀ a ∈ candidates m, ¬ IsRsdp m a) := by
  have hnamed : acpiGetRSDPtr m = named m (candidates m) := by
    rw [candidates, named_append, ← searchRSDPtr_eq_named, ← searchRSDPtr_eq_named, ← ebda_eq]
    rfl
  exact ⟨hnamed, by rw [hnamed, named_eq_zero_iff]⟩

/-! ## Headers -/

/-- The length a table declares. -/
def declared (m : Mem) (ptr : Word) : ℕ := (m.word (ptr + 4)).toNat

/-- A table with a whole header that sums to zero over the length it declares. -/
def IsTable (m : Mem) (ptr : Word) (sig : List Byte) : Prop :=
  Holds m ptr sig ∧ 36 ≤ declared m ptr ∧ m.sum ptr (declared m ptr) = 0

/-- **The check is exact** as long as a table shorter than its header does not sum to zero, and one
of 2 GiB or more, of which nothing is summed up, does. -/
theorem checkHeader_iff (m : Mem) (ptr : Word) (sig : List Byte) (hsig : sig.length = 4) :
    (acpiCheckHeader m ptr sig = 0 ↔ IsTable m ptr sig) ↔
      (Holds m ptr sig → (declared m ptr < 36 → m.sum ptr (declared m ptr) ≠ 0) ∧
        (2 ^ 31 ≤ declared m ptr → m.sum ptr (declared m ptr) = 0)) := by
  rw [acpiCheckHeader_eq_zero_iff hsig, IsTable]
  by_cases hholds : Holds m ptr sig
  · rw [forall_prop_of_true hholds, and_iff_right hholds]
    rcases Nat.lt_or_ge (declared m ptr) (2 ^ 31) with hlt | hge
    · have hbig : 2 ^ 31 ≤ declared m ptr → m.sum ptr (declared m ptr) = 0 :=
        fun hge => absurd hlt (not_lt.mpr hge)
      have hheader : Header m ptr sig ↔ m.sum ptr (declared m ptr) = 0 :=
        (header_iff_of_lt hlt).trans (and_iff_right hholds)
      rw [hheader, and_iff_left hbig, iff_and_self]
      exact ⟨fun h hshort hsum => absurd (h hsum) (not_le.mpr hshort),
        fun h hsum => not_lt.mp fun hshort => h hshort hsum⟩
    · have hshort : ¬ declared m ptr < 36 := by omega
      rw [header_iff_of_le hge, iff_true_left hholds, and_iff_right (not_lt.mp hshort),
        and_iff_right fun h => absurd h hshort, forall_prop_of_true hge]
  · exact iff_of_true (iff_of_false (fun h => hholds h.signature) fun h => hholds h.1)
      fun h => absurd h hholds

/-- A signature, and zeros behind it. -/
def bareSignature : Mem := fun a => (str "FACP").getD a.toNat 0

theorem checkHeader_bare :
    (acpiCheckHeader bareSignature 0 (str "FACP") = 0 ↔ IsTable bareSignature 0 (str "FACP")) ↔
      (Holds bareSignature 0 (str "FACP") →
        (declared bareSignature 0 < 36 → bareSignature.sum 0 (declared bareSignature 0) ≠ 0) ∧
        (2 ^ 31 ≤ declared bareSignature 0 →
          bareSignature.sum 0 (declared bareSignature 0) = 0)) :=
  checkHeader_iff bareSignature 0 (str "FACP") (by decide)

/-- It declares a length of 0, and is accepted. -/
theorem not_checkHeader : ¬ ∀ (m : Mem) (ptr : Word) (sig : List Byte), sig.length = 4 →
    (acpiCheckHeader m ptr sig = 0 ↔ IsTable m ptr sig) := by
  intro hall
  have haccepted : acpiCheckHeader bareSignature 0 (str "FACP") = 0 := by decide +kernel
  have hdeclared : declared bareSignature 0 = 0 := by decide +kernel
  have htable := (hall bareSignature 0 (str "FACP") (by decide)).mp haccepted
  have hlength := htable.2.1
  rw [hdeclared] at hlength
  exact absurd hlength (by decide)

end Acpi

end HuskyKernel
