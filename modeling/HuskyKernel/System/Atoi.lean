import HuskyKernel.System.Bytes
import Mathlib.Data.Nat.Digits.Defs
import Mathlib.Tactic.Ring

/-!
# System/Atoi — numbers in texts, and no overflow on the way

`atoi` in the arithmetic of the source, where an `int` that is left has no value: `atoi?`.  Where it
has one, the machine agrees (`toInt_atoi`).  `atoi_numeral`: blanks, a sign and digits are read as
the number they denote, whatever comes behind, as long as that number is an `int`.
-/

namespace HuskyKernel

/-! ## What digits denote -/

/-- What a digit stands for: `'0'` to `'9'`, and `'a'` on from ten. -/
def digitValue (c : Byte) : ℕ :=
  if isdigit c then c.toNat - (chr '0').toNat else c.toNat - (chr 'a').toNat + 10

/-- The number a text denotes, most significant digit first. -/
def valueIn (base : ℕ) (text : List Byte) : ℕ := Nat.ofDigits base (text.map digitValue).reverse

variable {base : ℕ} {c : Byte} {text blanks sign digits rest : List Byte} {v : ℤ}

@[simp] theorem valueIn_nil : valueIn base [] = 0 := rfl

/-- The first digit counts most. -/
theorem valueIn_cons :
    valueIn base (c :: text) = digitValue c * base ^ text.length + valueIn base text := by
  rw [valueIn, List.map_cons, Nat.ofDigits_reverse_cons, List.length_map, valueIn]
  ring

theorem le_of_isdigit (h : isdigit c = true) : (chr '0').toNat ≤ c.toNat := by
  rw [isdigit, Bool.and_eq_true, decide_eq_true_eq, UInt8.le_iff_toNat_le] at h
  exact h.1

theorem digitValue_of_isdigit (h : isdigit c = true) :
    (digitValue c : ℤ) = c.toNat - (chr '0').toNat := by
  rw [digitValue, if_pos h, Nat.cast_sub (le_of_isdigit h)]

/-! ## The parser, checked -/

/-- `v` as an `int`. -/
def int? (v : ℤ) : Option ℤ := if -2 ^ 31 ≤ v ∧ v < 2 ^ 31 then some v else none

/-- The digit loop, from `result` on. -/
def parseDigits : List Byte → ℤ → Option ℤ
  | [], result => some result
  | c :: str, result =>
      if isdigit c then do
        let product ← int? (result * 10)
        parseDigits str (← int? (product + (c.toNat - (chr '0').toNat)))
      else some result

/-- `atoi`; `none` where an operation overflows. -/
def atoi? (str : List Byte) : Option ℤ := do
  let str := str.dropWhile isspace
  let sign : ℤ := if str.headD 0 = chr '-' then -1 else 1
  let str := if str.headD 0 = chr '-' ∨ str.headD 0 = chr '+' then str.tail else str
  let result ← parseDigits str 0
  int? (sign * result)

theorem int?_eq_some {u : ℤ} : int? u = some v ↔ u = v ∧ -2 ^ 31 ≤ v ∧ v < 2 ^ 31 := by
  rw [int?]
  constructor
  · intro h
    by_cases hu : -2 ^ 31 ≤ u ∧ u < 2 ^ 31
    · rw [if_pos hu, Option.some.injEq] at h
      exact ⟨h, h ▸ hu⟩
    · rw [if_neg hu] at h
      cases h
  · rintro ⟨rfl, hv⟩
    exact if_pos hv

/-! ## The machine agrees -/

/-- `c - '0'`. -/
theorem digit_eq (h : isdigit c = true) :
    digit c = BitVec.ofInt 32 (c.toNat - (chr '0').toNat) := by
  have hle := le_of_isdigit h
  rw [← Nat.cast_sub hle, BitVec.ofInt_natCast, digit, BitVec.ofNat_sub_ofNat_of_le _ _ _ hle]
  have := c.toNat_lt
  omega

/-- **The digit loop of the machine** goes the same way. -/
theorem foldl_digits {str : List Byte} {r : ℤ} (h : parseDigits str r = some v) :
    (str.takeWhile isdigit).foldl (fun result c => result * 10 + digit c) (BitVec.ofInt 32 r)
      = BitVec.ofInt 32 v := by
  induction str generalizing r with
  | nil =>
    rw [parseDigits, Option.some.injEq] at h
    rw [h]
    rfl
  | cons c str ih =>
    rw [parseDigits] at h
    by_cases hc : isdigit c = true
    · rw [if_pos hc] at h
      obtain ⟨product, hproduct, hsum⟩ := Option.bind_eq_some_iff.mp h
      obtain ⟨sum, hsum, hrest⟩ := Option.bind_eq_some_iff.mp hsum
      obtain ⟨rfl, -⟩ := int?_eq_some.mp hproduct
      obtain ⟨rfl, -⟩ := int?_eq_some.mp hsum
      rw [List.takeWhile_cons_of_pos hc, List.foldl_cons, ← ih hrest, BitVec.ofInt_add,
        BitVec.ofInt_mul, digit_eq hc]
      rfl
    · rw [if_neg hc, Option.some.injEq] at h
      rw [List.takeWhile_cons_of_neg hc, h]
      rfl

/-- **Without overflow `atoi` is what it should be.** -/
theorem toInt_atoi (h : atoi? text = some v) : (atoi text).toInt = v := by
  rw [atoi?] at h
  obtain ⟨result, hdigits, hsign⟩ := Option.bind_eq_some_iff.mp h
  obtain ⟨hv, hrange⟩ := int?_eq_some.mp hsign
  suffices hword : atoi text = BitVec.ofInt 32 v by
    rw [hword]
    exact BitVec.toInt_ofInt_eq_self (by decide) hrange.1 hrange.2
  rw [atoi, ← hv]
  generalize text.dropWhile isspace = str at hdigits ⊢
  by_cases hminus : str.headD 0 = chr '-'
  · rw [if_pos (Or.inl hminus)] at hdigits
    rw [if_pos hminus, if_pos hminus, neg_one_mul, BitVec.ofInt_neg, ← foldl_digits hdigits]
    rfl
  · rw [if_neg hminus, if_neg hminus, one_mul]
    by_cases hplus : str.headD 0 = chr '+'
    · rw [if_pos (Or.inr hplus)] at hdigits
      rw [if_pos hplus, ← foldl_digits hdigits]
      rfl
    · rw [if_neg (not_or.mpr ⟨hminus, hplus⟩)] at hdigits
      rw [if_neg hplus, ← foldl_digits hdigits]
      rfl

/-! ## Numerals -/

/-- A text, read as blanks, a sign, digits and the rest.  Each of them is all there is of it: the
rest begins with no digit and, where there is neither digit nor sign in front of it, with neither
sign nor blank. -/
structure Numeral (text blanks sign digits rest : List Byte) : Prop where
  text_eq : text = blanks ++ (sign ++ (digits ++ rest))
  areBlanks : ∀ c ∈ blanks, isspace c = true
  isSign : sign = [] ∨ sign = [chr '-'] ∨ sign = [chr '+']
  areDigits : ∀ c ∈ digits, isdigit c = true
  behind : isdigit (rest.headD 0) = false
  whole : sign = [] → digits = [] →
    isspace (rest.headD 0) = false ∧ rest.headD 0 ≠ chr '-' ∧ rest.headD 0 ≠ chr '+'

/-- The number it denotes. -/
def signed (sign digits : List Byte) : ℤ :=
  if sign = [chr '-'] then -valueIn 10 digits else valueIn 10 digits

/-! ## They are read as what they denote -/

theorem int?_natCast {r : ℕ} (h : r < 2 ^ 31) : int? r = some (r : ℤ) :=
  int?_eq_some.mpr ⟨rfl, by omega, by omega⟩

/-- **The digit loop** shifts what it has by the digits it reads; no value on the way is above the
last. -/
theorem parseDigits_append (hdigits : ∀ c ∈ digits, isdigit c = true)
    (hrest : isdigit (rest.headD 0) = false) {r : ℕ}
    (hle : r * 10 ^ digits.length + valueIn 10 digits < 2 ^ 31) :
    parseDigits (digits ++ rest) r
      = some ((r * 10 ^ digits.length + valueIn 10 digits : ℕ) : ℤ) := by
  induction digits generalizing r with
  | nil =>
    rw [List.nil_append, List.length_nil, Nat.pow_zero, Nat.mul_one, valueIn_nil, Nat.add_zero]
    cases rest with
    | nil => rfl
    | cons c rest => exact if_neg (Bool.eq_false_iff.mp hrest)
  | cons c digits ih =>
    have hc := hdigits c List.mem_cons_self
    have hnext : (r * 10 + digitValue c) * 10 ^ digits.length + valueIn 10 digits
        = r * 10 ^ (c :: digits).length + valueIn 10 (c :: digits) := by
      rw [valueIn_cons, List.length_cons, Nat.pow_succ]
      ring
    have hsum : r * 10 + digitValue c < 2 ^ 31 := by
      refine lt_of_le_of_lt ((Nat.le_mul_of_pos_right _ ?_).trans (Nat.le_add_right _ _))
        (hnext.symm ▸ hle)
      exact Nat.pow_pos (by decide)
    have hproduct : int? ((r : ℤ) * 10) = some ((r * 10 : ℕ) : ℤ) := by
      exact_mod_cast int?_natCast (r := r * 10) (by omega)
    have hint : int? (((r * 10 : ℕ) : ℤ) + (c.toNat - (chr '0').toNat))
        = some ((r * 10 + digitValue c : ℕ) : ℤ) := by
      rw [← digitValue_of_isdigit hc]
      exact int?_natCast hsum
    rw [List.cons_append, parseDigits, if_pos hc, hproduct, Option.bind_eq_bind, Option.bind_some,
      hint, Option.bind_some,
      ih (fun d hd => hdigits d (List.mem_cons_of_mem _ hd)) (hnext ▸ hle), hnext]

namespace Numeral

/-- What is behind the blanks does not begin with one. -/
theorem isspace_headD (h : Numeral text blanks sign digits rest) :
    isspace ((sign ++ (digits ++ rest)).headD 0) = false := by
  obtain rfl | rfl | rfl := h.isSign
  · cases digits with
    | nil => exact (h.whole rfl rfl).1
    | cons c digits =>
      refine Bool.eq_false_iff.mpr fun hc => Bool.eq_false_iff.mp (isdigit_of_isspace hc) ?_
      exact h.areDigits c List.mem_cons_self
  · exact (by decide : isspace (chr '-') = false)
  · exact (by decide : isspace (chr '+') = false)

theorem dropWhile_eq (h : Numeral text blanks sign digits rest) :
    text.dropWhile isspace = sign ++ (digits ++ rest) := by
  have hfront := h.isspace_headD
  rw [h.text_eq, List.dropWhile_append_of_pos h.areBlanks]
  generalize sign ++ (digits ++ rest) = str at hfront
  cases str with
  | nil => rfl
  | cons c str => exact List.dropWhile_cons_of_neg (Bool.eq_false_iff.mp hfront)

/-- Without a sign there is none. -/
theorem headD_ne (h : Numeral text blanks [] digits rest) :
    (digits ++ rest).headD 0 ≠ chr '-' ∧ (digits ++ rest).headD 0 ≠ chr '+' := by
  cases digits with
  | nil => exact (h.whole rfl rfl).2
  | cons c digits =>
    have hc := h.areDigits c List.mem_cons_self
    rw [List.cons_append, List.headD_cons]
    refine ⟨?_, ?_⟩
    · rintro rfl
      exact absurd hc (by decide)
    · rintro rfl
      exact absurd hc (by decide)

/-- The three steps of the parser. -/
theorem atoi?_of_steps {str str' : List Byte} {s r : ℤ} (hdrop : text.dropWhile isspace = str)
    (hsign : (if str.headD 0 = chr '-' then -1 else 1) = s)
    (hskip : (if str.headD 0 = chr '-' ∨ str.headD 0 = chr '+' then str.tail else str) = str')
    (hparse : parseDigits str' 0 = some r) : atoi? text = int? (s * r) := by
  subst hdrop
  rw [atoi?, hskip, hparse, hsign, Option.bind_eq_bind, Option.bind_some]

/-- **A numeral is read as the number it denotes**, and nothing overflows. -/
theorem atoi?_eq (h : Numeral text blanks sign digits rest) (hle : valueIn 10 digits ≤ 2 ^ 31 - 1) :
    atoi? text = some (signed sign digits) := by
  have hlt : valueIn 10 digits < 2 ^ 31 := by omega
  have hparse : parseDigits (digits ++ rest) 0 = some (valueIn 10 digits : ℤ) := by
    have happ := parseDigits_append h.areDigits h.behind (r := 0) (by omega)
    rwa [Nat.zero_mul, Nat.zero_add] at happ
  have hdrop := h.dropWhile_eq
  obtain rfl | rfl | rfl := h.isSign
  · have hne := h.headD_ne
    rw [List.nil_append] at hdrop
    rw [atoi?_of_steps hdrop (if_neg hne.1) (if_neg (not_or.mpr hne)) hparse, one_mul,
      signed, if_neg (by decide)]
    exact int?_natCast hlt
  · rw [atoi?_of_steps hdrop (if_pos rfl) (if_pos (Or.inl rfl)) hparse, neg_one_mul, signed,
      if_pos rfl]
    exact int?_eq_some.mpr ⟨rfl, by omega, by omega⟩
  · have hne : chr '+' ≠ chr '-' := by decide
    rw [atoi?_of_steps hdrop (if_neg hne) (if_pos (Or.inr rfl)) hparse, one_mul, signed,
      if_neg (by decide)]
    exact int?_natCast hlt

end Numeral

/-- **`atoi` on a numeral**: without an overflow on the way, the number it denotes, and 0 if it has
no digits. -/
theorem atoi_numeral (h : Numeral text blanks sign digits rest)
    (hle : valueIn 10 digits ≤ 2 ^ 31 - 1) :
    atoi? text = some (signed sign digits) ∧ (atoi text).toInt = signed sign digits ∧
      (digits = [] → (atoi text).toInt = 0) := by
  have hvalue := h.atoi?_eq hle
  have hmachine := toInt_atoi hvalue
  refine ⟨hvalue, hmachine, ?_⟩
  rintro rfl
  rw [hmachine, signed, valueIn_nil, Nat.cast_zero, neg_zero, ite_self]

theorem atoi_numeral_leading_zeros : (atoi (str " \t-0042x7")).toInt = -42 := by
  have hnumeral : Numeral (str " \t-0042x7") (str " \t") (str "-") (str "0042") (str "x7") :=
    ⟨by decide +kernel, by decide +kernel, by decide +kernel, by decide +kernel, by decide +kernel,
      nofun⟩
  exact (atoi_numeral hnumeral (by decide +kernel)).2.1.trans (by decide +kernel)

end HuskyKernel
