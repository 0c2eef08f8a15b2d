import HuskyKernel.Logic.Reversal
import HuskyKernel.System.Atoi
import Mathlib.Data.Nat.Digits.Lemmas

/-!
# System/Itoa — digits into a buffer, and the buffer turned round

A buffer is a function from the offsets of its bytes, with the offsets that were touched.  `itoa` is
the loop of the source on it: digits from the last to the first, a NUL, and a reversal in place by
two pointers.  What it leaves is the text of `System/Bytes` and its NUL, and it touches nothing else
(`Chars.itoa_eq`).  `itoa_represents`: in every base the text is the positional notation.
`decimal_round_trip_iff`: `atoi` reads every `int` back from its decimal text, except the least,
whose negation is itself.
-/

namespace HuskyKernel

/-- An array of characters: what it holds at each offset, and the offsets read or written. -/
structure Chars where
  bytes : ℕ → Byte
  touched : List ℕ

namespace Chars

/-- An array that has not been touched, whatever it holds. -/
def fresh (bytes : ℕ → Byte) : Chars := ⟨bytes, []⟩

/-- `*ptr`. -/
def get (b : Chars) (ptr : ℕ) : Byte × Chars :=
  (b.bytes ptr, { b with touched := ptr :: b.touched })

/-- `*ptr = c`. -/
def put (b : Chars) (ptr : ℕ) (c : Byte) : Chars :=
  ⟨Function.update b.bytes ptr c, ptr :: b.touched⟩

/-- `tmp_char = *ptr; *ptr = *ptr1; *ptr1 = tmp_char;` -/
def swap (b : Chars) (ptr ptr1 : ℕ) : Chars :=
  let (tmpChar, b) := b.get ptr
  let (c, b) := b.get ptr1
  (b.put ptr c).put ptr1 tmpChar

/-- `while (value)`, in at most `n` rounds; `none` also where the division traps. -/
def digitLoop (base : Word) : ℕ → Word → Chars → ℕ → Option (Chars × ℕ)
  | 0, _, _, _ => none
  | n + 1, value, b, ptr =>
      if value = 0 then some (b, ptr)
      else if base = 0 ∨ value = BitVec.intMin 32 ∧ base = -1 then none
      else digitLoop base n (value.sdiv base) (b.put ptr (digitChar (value.srem base))) (ptr + 1)

/-- `while (ptr1 < --ptr)`. -/
def reverseLoop : ℕ → ℕ → Chars → Chars
  | 0, _, b => b
  | ptr + 1, ptr1, b =>
      if ptr1 < ptr then reverseLoop ptr (ptr1 + 1) (b.swap ptr ptr1) else b

/-- `itoa`.  Dividing by a base of 2 or more empties a word in 32 rounds. -/
def itoa (value base : Word) (b : Chars) : Option Chars :=
  if value = 0 then some ((b.put 0 (chr '0')).put 1 0)
  else
    let (b, ptr1, value) :=
      if value.slt 0 ∧ base = 10 then (b.put 0 (chr '-'), 1, -value) else (b, 0, value)
    (digitLoop base 33 value b ptr1).map fun (b, ptr) => reverseLoop ptr ptr1 (b.put ptr 0)

/-! ## Runs of stores -/

variable {b b' : Chars} {i ptr ptr1 n : ℕ} {cs text : List Byte} {value base : Word}

/-- Characters stored one behind the other. -/
def puts (b : Chars) (ptr : ℕ) : List Byte → Chars
  | [] => b
  | c :: cs => (b.put ptr c).puts (ptr + 1) cs

theorem bytes_put (c : Byte) : (b.put ptr c).bytes i = if i = ptr then c else b.bytes i :=
  Function.update_apply ..

theorem mem_touched_put {c : Byte} : i ∈ (b.put ptr c).touched ↔ i = ptr ∨ i ∈ b.touched :=
  List.mem_cons

theorem puts_append {ds : List Byte} :
    b.puts ptr (cs ++ ds) = (b.puts ptr cs).puts (ptr + cs.length) ds := by
  induction cs generalizing b ptr with
  | nil => rfl
  | cons c cs ih =>
    rw [List.cons_append, puts, ih, puts, List.length_cons, Nat.add_assoc, Nat.add_comm 1]

/-- **What an offset holds** after a run of stores. -/
theorem bytes_puts : (b.puts ptr cs).bytes i =
    if ptr ≤ i ∧ i < ptr + cs.length then cs.getD (i - ptr) 0 else b.bytes i := by
  induction cs generalizing b ptr with
  | nil => rw [if_neg (by rw [List.length_nil]; omega), puts]
  | cons c cs ih =>
    rw [puts, ih, bytes_put, List.length_cons]
    rcases lt_trichotomy i ptr with hlt | rfl | hgt
    · rw [if_neg (by omega), if_neg (by omega), if_neg (by omega)]
    · rw [if_neg (by omega), if_pos rfl, if_pos (by omega), Nat.sub_self, List.getD_cons_zero]
    · rw [if_neg hgt.ne', show i - ptr = i - (ptr + 1) + 1 by omega, List.getD_cons_succ]
      exact if_congr (by omega) rfl rfl

/-- The offsets stored to. -/
theorem mem_touched_puts : i ∈ (b.puts ptr cs).touched ↔
    (ptr ≤ i ∧ i < ptr + cs.length) ∨ i ∈ b.touched := by
  induction cs generalizing b ptr with
  | nil => rw [puts, List.length_nil, or_iff_right (by omega)]
  | cons c cs ih =>
    rw [puts, ih, mem_touched_put, List.length_cons, ← or_assoc]
    exact or_congr_left (by omega)

/-! ## The loops -/

theorem bytes_swap : (b.swap ptr ptr1).bytes = Reversal.exchange b.bytes ptr ptr1 := rfl

theorem mem_touched_swap :
    i ∈ (b.swap ptr ptr1).touched ↔ i = ptr ∨ i = ptr1 ∨ i ∈ b.touched := by
  change i ∈ ptr1 :: ptr :: ptr1 :: ptr :: b.touched ↔ _
  simp only [List.mem_cons]
  tauto

/-- **The reversal loop** reverses. -/
theorem bytes_reverseLoop (ptr ptr1 : ℕ) (b : Chars) :
    (reverseLoop ptr ptr1 b).bytes = Reversal.run b.bytes ptr1 ptr := by
  induction ptr generalizing ptr1 b with
  | zero => rfl
  | succ ptr ih =>
    rw [reverseLoop, Reversal.run]
    by_cases h : ptr1 < ptr
    · rw [if_pos h, if_pos h, ih, bytes_swap]
    · rw [if_neg h, if_neg h]

/-- It stays in its stretch. -/
theorem touched_reverseLoop (h : i ∈ (reverseLoop ptr ptr1 b).touched) :
    i < ptr ∨ i ∈ b.touched := by
  induction ptr generalizing ptr1 b with
  | zero => exact Or.inr h
  | succ ptr ih =>
    rw [reverseLoop] at h
    by_cases hlt : ptr1 < ptr
    · rw [if_pos hlt] at h
      rcases ih h with hi | hi
      · exact Or.inl (Nat.lt_succ_of_lt hi)
      rcases mem_touched_swap.mp hi with rfl | rfl | hi
      · exact Or.inl (Nat.lt_succ_self _)
      · exact Or.inl (Nat.lt_succ_of_lt hlt)
      · exact Or.inr hi
    · rw [if_neg hlt] at h
      exact Or.inr h

/-- Each round divides. -/
theorem natAbs_sdiv_lt (hbase : 2 ≤ base.toInt) (h : value.toInt.natAbs < 2 ^ (n + 1)) :
    (value.sdiv base).toInt.natAbs < 2 ^ n := by
  have hne : base ≠ -1#32 := by
    rintro rfl
    exact absurd hbase (by decide)
  rw [BitVec.toInt_sdiv_of_ne_or_ne _ _ (Or.inr hne), Int.natAbs_tdiv]
  refine (Nat.div_lt_iff_lt_mul (by omega)).mpr (h.trans_le ?_)
  rw [Nat.pow_succ]
  exact Nat.mul_le_mul_left _ (by omega)

/-- **The digit loop** stores the digits, and ends. -/
theorem digitLoop_eq (hbase : 2 ≤ base.toInt) (h : value.toInt.natAbs < 2 ^ n) :
    digitLoop base (n + 1) value b ptr = some
      (b.puts ptr (itoaDigits base n value), ptr + (itoaDigits base n value).length) := by
  have hne : ¬ (base = 0 ∨ value = BitVec.intMin 32 ∧ base = -1) := by
    rintro (rfl | ⟨-, rfl⟩)
    · exact absurd hbase (by decide)
    · exact absurd hbase (by decide)
  induction n generalizing value b ptr with
  | zero =>
    have hvalue : value = 0 := BitVec.toInt_inj.mp (Int.natAbs_eq_zero.mp (Nat.lt_one_iff.mp h))
    rw [digitLoop, if_pos hvalue]
    rfl
  | succ n ih =>
    rw [digitLoop, itoaDigits]
    by_cases hvalue : value = 0
    · rw [if_pos hvalue, if_pos hvalue]
      rfl
    · have hnext : ¬ (base = 0 ∨ value.sdiv base = BitVec.intMin 32 ∧ base = -1) := fun hor =>
        hne (hor.imp_right fun hand => absurd (hand.2 ▸ hbase) (by decide))
      rw [if_neg hvalue, if_neg hne, if_neg hvalue, ih (natAbs_sdiv_lt hbase h) hnext, puts,
        List.length_cons, Nat.add_right_comm, Nat.add_assoc]

/-! ## The text it leaves -/

/-- A text and its NUL have been written to the start of `b`, and nothing else was touched. -/
structure Written (b b' : Chars) (text : List Byte) : Prop where
  chars : ∀ i < text.length, b'.bytes i = text.getD i 0
  nul : b'.bytes text.length = 0
  frame : ∀ i, text.length < i → b'.bytes i = b.bytes i
  touched : ∀ i ∈ b'.touched, i ≤ text.length ∨ i ∈ b.touched

/-- **Digits behind a sign**, turned round. -/
theorem written_reverse (b : Chars) (sign ds : List Byte) :
    Written b (reverseLoop (sign.length + ds.length) sign.length
      (((b.puts 0 sign).puts sign.length ds).put (sign.length + ds.length) 0))
      (sign ++ ds.reverse) := by
  have hlen : (sign ++ ds.reverse).length = sign.length + ds.length := by
    rw [List.length_append, List.length_reverse]
  refine ⟨fun i hi => ?_, ?_, fun i hi => ?_, fun i hi => ?_⟩
  · rw [hlen] at hi
    rw [bytes_reverseLoop, Reversal.run_apply]
    by_cases hsign : i < sign.length
    · rw [if_neg (by omega), bytes_put, if_neg (by omega), bytes_puts, if_neg (by omega),
        bytes_puts, if_pos (by omega), List.getD_append _ _ _ _ hsign, Nat.sub_zero]
    · rw [if_pos (by omega), bytes_put, if_neg (by omega), bytes_puts, if_pos (by omega),
        List.getD_append_right _ _ _ _ (by omega), List.getD_reverse _ (by omega)]
      exact congrArg (ds.getD · 0) (by omega)
  · rw [hlen, bytes_reverseLoop, Reversal.run_apply, if_neg (by omega), bytes_put, if_pos rfl]
  · rw [hlen] at hi
    rw [bytes_reverseLoop, Reversal.run_apply, if_neg (by omega), bytes_put, if_neg (by omega),
      bytes_puts, if_neg (by omega), bytes_puts, if_neg (by omega)]
  · rw [hlen]
    rcases touched_reverseLoop hi with hi | hi
    · exact Or.inl hi.le
    rcases mem_touched_put.mp hi with rfl | hi
    · exact Or.inl le_rfl
    rcases mem_touched_puts.mp hi with hi | hi
    · exact Or.inl hi.2.le
    rcases mem_touched_puts.mp hi with hi | hi
    · exact Or.inl (by omega)
    · exact Or.inr hi

theorem natAbs_toInt_lt (v : Word) : v.toInt.natAbs < 2 ^ 32 := by
  have hle := BitVec.le_toInt v
  have hlt := BitVec.toInt_lt (x := v)
  omega

/-- **`itoa` writes its text**, and touches nothing else. -/
theorem itoa_eq (value : Word) (hbase : 2 ≤ base.toInt) (b : Chars) :
    ∃ b', itoa value base b = some b' ∧ Written b b' (HuskyKernel.itoa value base) := by
  rw [itoa, HuskyKernel.itoa]
  by_cases hzero : value = 0
  · rw [if_pos hzero, if_pos hzero]
    exact ⟨_, rfl, written_reverse b [] [chr '0']⟩
  rw [if_neg hzero, if_neg hzero]
  by_cases hneg : value.slt 0 ∧ base = 10
  · rw [if_pos hneg, if_pos hneg]
    dsimp only
    rw [digitLoop_eq hbase (natAbs_toInt_lt _)]
    exact ⟨_, rfl, written_reverse b [chr '-'] (itoaDigits base 32 (-value))⟩
  · rw [if_neg hneg, if_neg hneg]
    dsimp only
    rw [digitLoop_eq hbase (natAbs_toInt_lt _)]
    have hwritten := written_reverse b [] (itoaDigits base 32 value)
    rw [List.length_nil, Nat.zero_add] at hwritten
    exact ⟨_, by rw [Nat.zero_add]; rfl, hwritten⟩

theorem itoa_eq_ten (value : Word) (b : Chars) :
    ∃ b', itoa value 10 b = some b' ∧ Written b b' (HuskyKernel.itoa value 10) :=
  itoa_eq value (by decide) b

end Chars

/-! ## Words of numbers below 2^31 -/

variable {value base : Word} {v b d n : ℕ} {text : List Byte}

theorem toNat_ofNat_of_lt (h : v < 2 ^ 31) : (BitVec.ofNat 32 v).toNat = v :=
  (BitVec.toNat_ofNat _ _).trans (Nat.mod_eq_of_lt (by omega))

theorem msb_ofNat_of_lt (h : v < 2 ^ 31) : (BitVec.ofNat 32 v).msb = false := by
  rw [BitVec.msb_eq_decide, decide_eq_false_iff_not, toNat_ofNat_of_lt h]
  omega

theorem toInt_ofNat_of_lt (h : v < 2 ^ 31) : (BitVec.ofNat 32 v).toInt = v := by
  have hto := toNat_ofNat_of_lt h
  rw [BitVec.toInt_eq_toNat_of_lt (by omega), hto]

/-- They are divided as numbers. -/
theorem sdiv_ofNat (hv : v < 2 ^ 31) (hb : b < 2 ^ 31) :
    (BitVec.ofNat 32 v).sdiv (BitVec.ofNat 32 b) = BitVec.ofNat 32 (v / b) := by
  rw [BitVec.sdiv_eq, msb_ofNat_of_lt hv, msb_ofNat_of_lt hb]
  refine BitVec.eq_of_toNat_eq ?_
  rw [BitVec.udiv_eq, BitVec.toNat_udiv, toNat_ofNat_of_lt hv, toNat_ofNat_of_lt hb,
    toNat_ofNat_of_lt ((Nat.div_le_self v b).trans_lt hv)]

theorem srem_ofNat (hv : v < 2 ^ 31) (hb : b < 2 ^ 31) :
    (BitVec.ofNat 32 v).srem (BitVec.ofNat 32 b) = BitVec.ofNat 32 (v % b) := by
  rw [BitVec.srem_eq, msb_ofNat_of_lt hv, msb_ofNat_of_lt hb]
  refine BitVec.eq_of_toNat_eq ?_
  rw [BitVec.toNat_umod, toNat_ofNat_of_lt hv, toNat_ofNat_of_lt hb,
    toNat_ofNat_of_lt ((Nat.mod_le v b).trans_lt hv)]

/-! ## Positional notation -/

/-- The character of a digit. -/
def digitOf (d : ℕ) : Byte := digitChar (BitVec.ofNat 32 d)

/-- A digit `'0'` to `'9'` or `'a'` to `'z'`, below the base. -/
def IsDigitIn (base : ℕ) (c : Byte) : Prop :=
  (isdigit c = true ∨ chr 'a' ≤ c ∧ c ≤ chr 'z') ∧ digitValue c < base

theorem isDigitIn_of_lt {c : Byte} (h : IsDigitIn b c) (hb : b ≤ 10) : isdigit c = true := by
  by_contra hc
  have hlt := h.2
  rw [digitValue, if_neg hc] at hlt
  omega

/-- A character for each of 36 digits. -/
theorem digitOf_spec (h : d < 36) : digitValue (digitOf d) = d ∧
    (isdigit (digitOf d) = true ∨ chr 'a' ≤ digitOf d ∧ digitOf d ≤ chr 'z') := by
  revert d
  decide +kernel

/-- **The digits of a word that is not negative** are those of its value. -/
theorem itoaDigits_eq (hb : 1 < b) (hb' : b < 2 ^ 31) (hv : v < 2 ^ 31) (hn : v < 2 ^ n) :
    itoaDigits (BitVec.ofNat 32 b) n (BitVec.ofNat 32 v) = (b.digits v).map digitOf := by
  induction n generalizing v with
  | zero =>
    rw [Nat.lt_one_iff.mp hn, Nat.digits_zero]
    rfl
  | succ n ih =>
    rcases Nat.eq_zero_or_pos v with rfl | hpos
    · rw [Nat.digits_zero]
      rfl
    have hne : BitVec.ofNat 32 v ≠ 0 := by bv_omega
    have hle := Nat.div_le_self v b
    have hlt : v / b < 2 ^ n := by
      refine (Nat.div_lt_iff_lt_mul (by omega)).mpr (hn.trans_le ?_)
      rw [Nat.pow_succ]
      exact Nat.mul_le_mul_left _ hb
    rw [itoaDigits, if_neg hne, sdiv_ofNat hv hb', srem_ofNat hv hb', ih (by omega) hlt,
      Nat.digits_def' hb hpos, List.map_cons]
    rfl

/-- A text is the positional notation of a number. -/
structure Represents (base v : ℕ) (text : List Byte) : Prop where
  digits : ∀ c ∈ text, IsDigitIn base c
  front : text.head? ≠ some (chr '0')
  value : valueIn base text = v

/-- The digits of a number, most significant first. -/
theorem represents_digits (hb : 1 < b) (hb' : b ≤ 36) (v : ℕ) :
    Represents b v ((b.digits v).map digitOf).reverse := by
  have hlt : ∀ {d}, d ∈ b.digits v → d < 36 := fun hd => (Nat.digits_lt_base hb hd).trans_le hb'
  refine ⟨fun c hc => ?_, fun hfront => ?_, ?_⟩
  · obtain ⟨d, hd, rfl⟩ := List.mem_map.mp (List.mem_reverse.mp hc)
    obtain ⟨hvalue, hclass⟩ := digitOf_spec (hlt hd)
    exact ⟨hclass, hvalue.symm ▸ Nat.digits_lt_base hb hd⟩
  · rw [List.head?_reverse, List.getLast?_map, Option.map_eq_some_iff] at hfront
    obtain ⟨d, hd, hzero⟩ := hfront
    have hne : b.digits v ≠ [] := List.ne_nil_of_mem (List.mem_of_getLast? hd)
    rw [List.getLast?_eq_some_getLast hne, Option.some.injEq] at hd
    have hvalue := (digitOf_spec (hlt (List.getLast_mem hne))).1
    rw [hd, hzero] at hvalue
    refine Nat.getLast_digit_ne_zero b (Nat.digits_ne_nil_iff_ne_zero.mp hne) (hd.trans ?_)
    exact hvalue.symm
  · have hvalues : (b.digits v).map (digitValue ∘ digitOf) = b.digits v :=
      (List.map_congr_left fun d hd => (digitOf_spec (hlt hd)).1).trans (List.map_id _)
    rw [valueIn, List.map_reverse, List.reverse_reverse, List.map_map, hvalues, Nat.ofDigits_digits]

/-- `itoa` of a positive number. -/
theorem itoa_ofNat (h0 : 0 < v) (hv : v < 2 ^ 31) (hb : 1 < b) (hb' : b < 2 ^ 31) :
    itoa (BitVec.ofNat 32 v) (BitVec.ofNat 32 b) = ((b.digits v).map digitOf).reverse := by
  have hne : BitVec.ofNat 32 v ≠ 0 := by bv_omega
  have hnonneg : ¬ ((BitVec.ofNat 32 v).slt 0 = true ∧ BitVec.ofNat 32 b = 10) := by
    rw [BitVec.slt_iff_toInt_lt, toInt_ofNat_of_lt hv, show (0 : Word).toInt = 0 from rfl]
    omega
  rw [itoa, if_neg hne, if_neg hnonneg, itoaDigits_eq hb hb' hv (by omega)]

/-- **Digits in any base**: `itoa` writes the positional notation of a positive number, and a NUL,
and touches nothing behind it. -/
theorem itoa_represents (garbage : ℕ → Byte) (h0 : 0 < v) (hv : v < 2 ^ 31) (hb : 2 ≤ b)
    (hb' : b ≤ 36) : ∃ s text,
      Chars.itoa (BitVec.ofNat 32 v) (BitVec.ofNat 32 b) (.fresh garbage) = some s ∧
      Chars.Written (.fresh garbage) s text ∧ Represents b v text := by
  have hbase : 2 ≤ (BitVec.ofNat 32 b).toInt := by
    rw [toInt_ofNat_of_lt (by omega)]
    omega
  obtain ⟨s, hs, hwritten⟩ := Chars.itoa_eq (BitVec.ofNat 32 v) hbase (.fresh garbage)
  refine ⟨s, _, hs, hwritten, ?_⟩
  rw [itoa_ofNat h0 hv hb (by omega)]
  exact represents_digits hb hb' v

/-- 255 in hexadecimal. -/
theorem itoa_represents_hexadecimal : ∃ s text,
    Chars.itoa 255 16 (.fresh fun _ => 0) = some s ∧
      Chars.Written (.fresh fun _ => 0) s text ∧ Represents 16 255 text :=
  itoa_represents (fun _ => 0) (by decide) (by decide) (by decide) (by decide)

/-! ## The decimal round trip -/

/-- An optional `'-'`, and decimal digits without leading zeros. -/
structure IsDecimal (text sign digits : List Byte) : Prop where
  text_eq : text = sign ++ digits
  isSign : sign = [] ∨ sign = [chr '-']
  areDigits : ∀ c ∈ digits, isdigit c = true
  nonempty : digits ≠ []
  front : digits.head? = some (chr '0') → digits = [chr '0']

/-- `itoa(v, buf, 10)` stays in 12 bytes, writes a decimal numeral, and `atoi` reads `v` from it. -/
def RoundTrips (garbage : ℕ → Byte) (v : Word) : Prop :=
  ∃ s text, Chars.itoa v 10 (.fresh garbage) = some s ∧ Chars.Written (.fresh garbage) s text ∧
    (∀ i ∈ s.touched, i < 12) ∧ (∃ sign digits, IsDecimal text sign digits) ∧ atoi text = v

variable {sign digits : List Byte} {b b' : Chars} {text' : List Byte}

namespace IsDecimal

/-- A decimal is read as what it denotes. -/
theorem toInt_atoi (h : IsDecimal text sign digits) (hle : valueIn 10 digits ≤ 2 ^ 31 - 1) :
    (atoi text).toInt = signed sign digits := by
  have hnumeral : Numeral text [] sign digits [] :=
    { text_eq := by rw [h.text_eq, List.nil_append, List.append_nil]
      areBlanks := fun _ hc => absurd hc List.not_mem_nil
      isSign := h.isSign.imp_right Or.inl
      areDigits := h.areDigits
      behind := isdigit_zero
      whole := fun _ hnone => absurd hnone h.nonempty }
  exact HuskyKernel.toInt_atoi (hnumeral.atoi?_eq hle)

theorem eq_or_isdigit (h : IsDecimal text sign digits) {c : Byte} (hc : c ∈ text) :
    c = chr '-' ∨ isdigit c = true := by
  rw [h.text_eq, List.mem_append] at hc
  refine hc.imp (fun hc => ?_) (h.areDigits c)
  obtain rfl | rfl := h.isSign
  · exact absurd hc List.not_mem_nil
  · exact List.mem_singleton.mp hc

theorem zero_notMem (h : IsDecimal text sign digits) : 0 ∉ text := fun h0 =>
  absurd (h.eq_or_isdigit h0) (by decide)

end IsDecimal

/-- What has been written is known from the buffer. -/
theorem Chars.Written.unique (h : Written b b' text) (h' : Written b b' text') (h0 : 0 ∉ text)
    (h0' : 0 ∉ text') : text = text' := by
  have hle : ∀ {t t' : List Byte}, Written b b' t → Written b b' t' → 0 ∉ t' →
      t'.length ≤ t.length := by
    intro t t' ht ht' hz
    by_contra hlt
    have hbyte := (ht'.chars _ (not_le.mp hlt)).symm.trans ht.nul
    rw [List.getD_eq_getElem _ _ (not_le.mp hlt)] at hbyte
    exact hz (hbyte ▸ List.getElem_mem _)
  have hlen := le_antisymm (hle h' h h0) (hle h h' h0')
  refine List.ext_getElem hlen fun i hi hi' => ?_
  rw [← List.getD_eq_getElem _ 0 hi, ← List.getD_eq_getElem _ 0 hi', ← h.chars i hi,
    ← h'.chars i hi']

/-- The digits of a number are decimal, behind a sign or without. -/
theorem isDecimal_digits (h0 : 0 < v) (hsign : sign = [] ∨ sign = [chr '-']) :
    IsDecimal (sign ++ ((Nat.digits 10 v).map digitOf).reverse) sign
      ((Nat.digits 10 v).map digitOf).reverse := by
  have hrep := represents_digits (b := 10) (by decide) (by decide) v
  refine ⟨rfl, hsign, fun c hc => isDigitIn_of_lt (hrep.digits c hc) le_rfl, fun hnil => ?_,
    fun hzero => absurd hzero hrep.front⟩
  rw [List.reverse_eq_nil_iff, List.map_eq_nil_iff] at hnil
  exact h0.ne' (Nat.digits_eq_nil_iff_eq_zero.mp hnil)

theorem length_digits_le (hv : v < 2 ^ 31) :
    ((Nat.digits 10 v).map digitOf).reverse.length ≤ 10 := by
  rw [List.length_reverse, List.length_map, Nat.digits_length_le_iff (by decide)]
  omega

/-- **The decimal text of an `int`**, the least one apart: a sign, and the digits of its absolute
value. -/
theorem itoa_ten (h : value ≠ BitVec.intMin 32) (h0 : value ≠ 0) : ∃ sign, ∃ a : ℕ,
    0 < a ∧ a < 2 ^ 31 ∧ (sign = [] ∧ value.toInt = a ∨ sign = [chr '-'] ∧ value.toInt = -a) ∧
      itoa value 10 = sign ++ ((Nat.digits 10 a).map digitOf).reverse := by
  have hlow := BitVec.le_toInt value
  have hhigh := BitVec.toInt_lt (x := value)
  have hmin : value.toInt ≠ -2 ^ 31 := fun heq => h (BitVec.toInt_inj.mp heq)
  have hzero : value.toInt ≠ 0 := fun heq => h0 (BitVec.toInt_inj.mp heq)
  rcases lt_or_gt_of_ne hzero with hneg | hpos
  · obtain ⟨a, ha⟩ := Int.eq_ofNat_of_zero_le (show 0 ≤ -value.toInt by omega)
    have hminus : -value = BitVec.ofNat 32 a := by
      rw [← BitVec.ofInt_natCast, ← ha, BitVec.ofInt_neg, BitVec.ofInt_toInt]
    have hslt : value.slt 0 = true ∧ (10 : Word) = 10 := ⟨BitVec.slt_iff_toInt_lt.mpr hneg, rfl⟩
    refine ⟨[chr '-'], a, by omega, by omega, Or.inr ⟨rfl, by omega⟩, ?_⟩
    rw [itoa, if_neg h0, if_pos hslt, hminus]
    exact congrArg (chr '-' :: List.reverse ·)
      (itoaDigits_eq (b := 10) (by decide) (by decide) (by omega) (by omega))
  · obtain ⟨a, ha⟩ := Int.eq_ofNat_of_zero_le hpos.le
    have hvalue : value = BitVec.ofNat 32 a := by
      rw [← BitVec.ofInt_natCast, ← ha, BitVec.ofInt_toInt]
    refine ⟨[], a, by omega, by omega, Or.inl ⟨rfl, ha⟩, ?_⟩
    rw [hvalue, List.nil_append]
    exact itoa_ofNat (b := 10) (by omega) (by omega) (by decide) (by decide)

/-- The text of the least `int`: its negation is itself, and its remainders are negative. -/
theorem itoa_intMin : itoa (BitVec.intMin 32) 10 = str "-./,),(-*,(" := by decide +kernel

/-- It is no decimal. -/
theorem not_isDecimal_intMin (h : IsDecimal (str "-./,),(-*,(") sign digits) : False :=
  absurd (h.eq_or_isdigit (c := chr '.') (by decide)) (by decide)

/-- The round trip of an `int` that is neither 0 nor the least. -/
theorem atoi_itoa_ten (h : value ≠ BitVec.intMin 32) (h0 : value ≠ 0) :
    (itoa value 10).length ≤ 11 ∧ (∃ sign digits, IsDecimal (itoa value 10) sign digits) ∧
      atoi (itoa value 10) = value := by
  obtain ⟨sign, a, ha0, ha, hsign, htext⟩ := itoa_ten h h0
  have hdecimal := isDecimal_digits ha0 (hsign.imp And.left And.left)
  have hvalue := (represents_digits (b := 10) (by decide) (by decide) a).value
  rw [htext]
  refine ⟨?_, ⟨sign, _, hdecimal⟩, BitVec.toInt_inj.mp ?_⟩
  · have hlen := length_digits_le ha
    have hone : sign.length ≤ 1 := by
      obtain ⟨rfl, -⟩ | ⟨rfl, -⟩ := hsign
      · exact Nat.zero_le _
      · exact le_rfl
    rw [List.length_append]
    omega
  · rw [hdecimal.toInt_atoi (by omega), signed, hvalue]
    obtain ⟨rfl, hpos⟩ | ⟨rfl, hneg⟩ := hsign
    · rw [if_neg (by decide), hpos]
    · rw [if_pos rfl, hneg]

/-- **Every decimal text** fits in 12 bytes with its NUL, and holds no other. -/
theorem itoa_ten_fits (v : Word) : (itoa v 10).length ≤ 11 ∧ 0 ∉ itoa v 10 := by
  by_cases hmin : v = BitVec.intMin 32
  · subst hmin
    rw [itoa_intMin]
    decide
  by_cases hzero : v = 0
  · subst hzero
    decide
  · obtain ⟨hlen, ⟨sign, digits, hdecimal⟩, -⟩ := atoi_itoa_ten hmin hzero
    exact ⟨hlen, hdecimal.zero_notMem⟩

/-- What comes of the least `int`. -/
theorem not_roundTrips (garbage : ℕ → Byte) : ¬ RoundTrips garbage (BitVec.intMin 32) := by
  rintro ⟨s', text, hs', hwritten', -, ⟨sign, digits, hdecimal⟩, -⟩
  obtain ⟨s, hs, hwritten⟩ :=
    Chars.itoa_eq_ten (BitVec.intMin 32) (.fresh garbage)
  obtain rfl := Option.some.inj (hs.symm.trans hs')
  rw [itoa_intMin] at hwritten
  obtain rfl := hwritten'.unique hwritten hdecimal.zero_notMem (by decide)
  exact not_isDecimal_intMin hdecimal

/-- **The decimal round trip** is one for every `int` but the least. -/
theorem decimal_round_trip_iff (garbage : ℕ → Byte) (v : Word) :
    RoundTrips garbage v ↔ v ≠ BitVec.intMin 32 := by
  refine ⟨?_, fun hmin => ?_⟩
  · rintro h rfl
    exact not_roundTrips garbage h
  obtain ⟨s, hs, hwritten⟩ := Chars.itoa_eq_ten v (.fresh garbage)
  have htouched : ∀ i ∈ s.touched, i < 12 := fun i hi => Nat.lt_succ_of_le
    (((hwritten.touched i hi).resolve_right List.not_mem_nil).trans (itoa_ten_fits v).1)
  by_cases hzero : v = 0
  · subst hzero
    have hdecimal : IsDecimal (itoa 0 10) [] [chr '0'] :=
      ⟨rfl, Or.inl rfl, by decide +kernel, List.cons_ne_nil _ _, fun _ => rfl⟩
    exact ⟨s, _, hs, hwritten, htouched, ⟨[], _, hdecimal⟩, by decide +kernel⟩
  · obtain ⟨-, hdecimal, hread⟩ := atoi_itoa_ten hmin hzero
    exact ⟨s, _, hs, hwritten, htouched, hdecimal, hread⟩

/-- **The least `int`** does not come back. -/
theorem round_trip_intMin : ¬ RoundTrips (fun _ => 0) (-2147483648) :=
  not_roundTrips fun _ => 0

end HuskyKernel
