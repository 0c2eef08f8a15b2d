import HuskyKernel.System.Heap
import HuskyKernel.Logic.Scan

/-!
# System/Bytes — characters, and C strings seen through a pointer

A `const char*` is read through the bytes from the pointer on, a `List Byte`; reading behind the
last of them gives a NUL, so every walk of a string ends.  The character classes and string
functions are those of `system.c` and `standard.c`.  A `char` of 128 or more is negative there and
belongs to no class; as an unsigned byte it lies above `'z'` and belongs to none either.
-/

namespace HuskyKernel

/-- A `char`, read unsigned. -/
abbrev Byte := UInt8

/-- A character constant. -/
abbrev chr (c : Char) : Byte := c.toUInt8

/-- The text of a string constant, its NUL left off. -/
def str (s : String) : List Byte := s.toList.map Char.toUInt8

/-! ## Character classes -/

def isspace (c : Byte) : Bool :=
  c = chr ' ' || c = chr '\t' || c = chr '\n' || c = 0x0b || c = 0x0c || c = chr '\r'

def isalpha (c : Byte) : Bool :=
  (chr 'A' ≤ c && c ≤ chr 'Z') || (chr 'a' ≤ c && c ≤ chr 'z')

def isdigit (c : Byte) : Bool := chr '0' ≤ c && c ≤ chr '9'

def isalnum (c : Byte) : Bool := isalpha c || isdigit c

/-- No class holds the NUL, so no scan of a class passes the end of a string. -/
@[simp] theorem isspace_zero : isspace 0 = false := by decide

@[simp] theorem isalpha_zero : isalpha 0 = false := by decide

@[simp] theorem isdigit_zero : isdigit 0 = false := by decide

/-- The blanks are six characters. -/
theorem isspace_cases {c : Byte} (h : isspace c = true) : c = chr ' ' ∨ c = chr '\t' ∨
    c = chr '\n' ∨ c = 0x0b ∨ c = 0x0c ∨ c = chr '\r' := by
  simpa only [isspace, Bool.or_eq_true, decide_eq_true_eq, or_assoc] using h

/-- None of them is in another class. -/
theorem isalnum_of_isspace {c : Byte} (h : isspace c = true) : isalnum c = false := by
  obtain rfl | rfl | rfl | rfl | rfl | rfl := isspace_cases h <;> decide

theorem isalpha_of_isspace {c : Byte} (h : isspace c = true) : isalpha c = false :=
  (Bool.or_eq_false_iff.mp (isalnum_of_isspace h)).1

theorem isdigit_of_isspace {c : Byte} (h : isspace c = true) : isdigit c = false :=
  (Bool.or_eq_false_iff.mp (isalnum_of_isspace h)).2

theorem isdigit_of_isalpha {c : Byte} (h : isalpha c = true) : isdigit c = false := by
  simp only [isalpha, Bool.or_eq_true, Bool.and_eq_true, decide_eq_true_eq,
    UInt8.le_iff_toNat_le] at h
  simp only [isdigit, Bool.and_eq_false_iff, decide_eq_false_iff_not, UInt8.le_iff_toNat_le]
  have : (chr 'A').toNat = 65 ∧ (chr 'a').toNat = 97 ∧ (chr '9').toNat = 57 := by decide
  omega

/-! ## Comparing and copying -/

/-- The C string at a pointer: the bytes before the first NUL. -/
def cstr (s : List Byte) : List Byte := s.takeWhile (· ≠ 0)

/-- `strcmp`: the difference of the first bytes that differ, or that end the first string. -/
def strcmp : List Byte → List Byte → ℤ
  | [], t => 0 - (t.headD 0).toNat
  | c :: s, t =>
      if c ≠ 0 ∧ c = t.headD 0 then strcmp s t.tail else c.toNat - (t.headD 0).toNat

/-- `strncmp`: at most `n` bytes, and none behind a NUL both strings share. -/
def strncmp : List Byte → List Byte → ℕ → ℤ
  | _, _, 0 => 0
  | s, t, n + 1 =>
      if s.headD 0 ≠ t.headD 0 then (s.headD 0).toNat - (t.headD 0).toNat
      else if s.headD 0 = 0 then 0
      else strncmp s.tail t.tail n

/-- `strncpy`: the `n` bytes it stores at the destination, NULs once the source has ended. -/
def strncpy : List Byte → ℕ → List Byte
  | _, 0 => []
  | s, n + 1 =>
      if s.headD 0 ≠ 0 then s.headD 0 :: strncpy s.tail n else List.replicate (n + 1) 0

/-- A C string, taken apart at its first byte. -/
theorem cstr_eq (s : List Byte) :
    cstr s = if s.headD 0 = 0 then [] else s.headD 0 :: cstr s.tail := by
  cases s with
  | nil => rfl
  | cons c s => by_cases hc : c = 0 <;> simp [cstr, hc]

/-- A string ends at its first NUL, whatever is behind. -/
theorem cstr_append {s t : List Byte} (h : 0 ∈ s) : cstr (s ++ t) = cstr s := by
  induction s with
  | nil => cases h
  | cons c s ih =>
    rw [List.cons_append, cstr_eq, cstr_eq (c :: s), List.headD_cons, List.headD_cons,
      List.tail_cons, List.tail_cons]
    by_cases hc : c = 0
    · rw [if_pos hc, if_pos hc]
    · rw [if_neg hc, if_neg hc, ih ((List.mem_cons.mp h).resolve_left fun h0 => hc h0.symm)]

/-- A string put in front of a NUL is read back. -/
theorem cstr_append_zero {s t : List Byte} (h : 0 ∉ s) : cstr (s ++ 0 :: t) = s := by
  rw [cstr, List.takeWhile_append_of_pos fun c hc =>
    decide_eq_true (p := c ≠ 0) fun h0 => h (h0 ▸ hc)]
  exact List.append_nil s

/-- A string without a NUL is all of its bytes. -/
theorem cstr_eq_self_iff {s : List Byte} : cstr s = s ↔ 0 ∉ s := by
  rw [cstr, List.takeWhile_eq_self_iff]
  exact ⟨fun h h0 => absurd rfl (of_decide_eq_true (h 0 h0)),
    fun h c hc => decide_eq_true fun h0 => h (h0 ▸ hc)⟩

theorem zero_notMem_cstr (s : List Byte) : 0 ∉ cstr s := fun h =>
  absurd (List.mem_takeWhile_imp (p := fun c => decide (c ≠ 0)) h) (by decide)

theorem length_cstr_iff {s : List Byte} : (cstr s).length = s.length ↔ 0 ∉ s :=
  ⟨fun h => cstr_eq_self_iff.mp ((List.takeWhile_prefix _).eq_of_length h),
    fun h => congrArg List.length (cstr_eq_self_iff.mpr h)⟩

/-- A NUL behind a string ends it, unless it has ended already. -/
theorem cstr_append_cons_zero (s t : List Byte) : cstr (s ++ 0 :: t) = cstr s := by
  by_cases h : 0 ∈ s
  · exact cstr_append h
  · rw [cstr_append_zero h, cstr_eq_self_iff.mpr h]

/-- Up to the first NUL. -/
theorem eq_cstr_append {s : List Byte} (h : 0 ∈ s) : ∃ t, s = cstr s ++ 0 :: t := by
  obtain ⟨xs, t, rfl, hxs⟩ := List.eq_append_cons_of_mem h
  exact ⟨t, by rw [cstr_append_zero hxs]⟩

/-- **`strcmp` answers 0 exactly on equal C strings.** -/
theorem strcmp_eq_zero_iff : ∀ {s t : List Byte}, strcmp s t = 0 ↔ cstr s = cstr t
  | [], t => by
      have hsub : (0 - ((t.headD 0).toNat : ℤ) = 0) ↔ t.headD 0 = 0 := by
        rw [← UInt8.toNat_inj, UInt8.toNat_zero]
        omega
      rw [strcmp, hsub, cstr_eq t, show cstr [] = [] from rfl]
      generalize t.headD 0 = d
      by_cases hd : d = 0 <;> simp [hd]
  | c :: s, t => by
      have hsub : ((c.toNat : ℤ) - (t.headD 0).toNat = 0) ↔ c = t.headD 0 := by
        rw [sub_eq_zero, Nat.cast_inj, UInt8.toNat_inj]
      rw [strcmp, cstr_eq (c :: s), cstr_eq t, List.headD_cons, List.tail_cons]
      by_cases hc : c ≠ 0 ∧ c = t.headD 0
      · rw [if_pos hc, strcmp_eq_zero_iff, if_neg hc.1, ← hc.2, if_neg hc.1, List.cons.injEq]
        simp
      · rw [if_neg hc, hsub]
        generalize t.headD 0 = d at hc
        by_cases hd : d = 0
        · by_cases hc0 : c = 0 <;> simp [hc0, hd]
        · by_cases hc0 : c = 0
          · simp [hc0, hd, Ne.symm hd]
          · have hne : c ≠ d := fun h => hc ⟨hc0, h⟩
            simp [hc0, hd, hne]

/-- A string copied up to its end. -/
theorem strncpy_append {s t : List Byte} (h : 0 ∉ s) : strncpy (s ++ t) s.length = s := by
  induction s with
  | nil => rfl
  | cons c s ih =>
    have hc : c ≠ 0 := fun h0 => h (h0 ▸ List.mem_cons_self)
    rw [List.cons_append, List.length_cons, strncpy, List.headD_cons, if_pos hc, List.tail_cons,
      ih fun h0 => h (List.mem_cons_of_mem _ h0)]

/-- A keyword is not where its first letter is not. -/
theorem strncmp_ne_zero_of_headD {s t : List Byte} {n : ℕ} (h : s.headD 0 ≠ t.headD 0) :
    strncmp s t (n + 1) ≠ 0 := by
  rw [strncmp, if_pos h, sub_ne_zero, Ne, Nat.cast_inj, UInt8.toNat_inj]
  exact h

/-! ## Numbers -/

/-- `c - '0'`, widened to an `int`. -/
def digit (c : Byte) : Word := BitVec.ofNat 32 c.toNat - BitVec.ofNat 32 (chr '0').toNat

/-- `for each digit: result = result * 10 + (c - '0')`, in machine arithmetic. -/
def decimal (ds : List Byte) : Word := ds.foldl (fun result c => result * 10 + digit c) 0

/-- `atoi`, on the C string at a pointer. -/
def atoi (s : List Byte) : Word :=
  let s := s.dropWhile isspace
  if s.headD 0 = chr '-' then -decimal (s.tail.takeWhile isdigit)
  else if s.headD 0 = chr '+' then decimal (s.tail.takeWhile isdigit)
  else decimal (s.takeWhile isdigit)

/-- One digit as `itoa` stores it: `tmp < 10 ? '0' + tmp : 'a' + tmp - 10`, cut to a `char`. -/
def digitChar (tmp : Word) : Byte :=
  UInt8.ofBitVec ((if tmp.slt 10 then 0x30#32 + tmp else 0x61#32 + tmp - 10).setWidth 8)

/-- The digit loop of `itoa`, least significant digit first.  Dividing by a base of 2 or more
empties a word in 32 rounds. -/
def itoaDigits (base : Word) : ℕ → Word → List Byte
  | 0, _ => []
  | n + 1, v =>
      if v = 0 then [] else digitChar (v.srem base) :: itoaDigits base n (v.sdiv base)

/-- `itoa`: the C string it leaves in its buffer. -/
def itoa (value base : Word) : List Byte :=
  if value = 0 then [chr '0']
  else if value.slt 0 ∧ base = 10 then chr '-' :: (itoaDigits base 32 (-value)).reverse
  else (itoaDigits base 32 value).reverse

end HuskyKernel
