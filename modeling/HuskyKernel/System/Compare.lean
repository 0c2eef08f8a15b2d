import HuskyKernel.Logic.Noted
import HuskyKernel.System.Overlaps

/-!
# System/Compare — three comparisons, one order

`strcmp`, `strncmp` and `memcmp` as loops over memory.  `strcmp` and `strncmp` note the addresses
they read.  `comparison_order`: the answers of all three have the signs of the lexicographic order
on unsigned bytes, and the first two never read behind the first NUL or the first difference.
-/

namespace HuskyKernel

namespace Mem

/-- A byte is read. -/
def read (m : Mem) (a : Word) : Noted Word Byte := ⟨m a, [a]⟩

/-! ## The loops -/

section Loops

variable (m : Mem)

/-- `*str1 && (*str1 == *str2)`. -/
def goesOn (str1 str2 : Word) : Noted Word Bool := do
  if (← m.read str1) ≠ 0 then return (← m.read str1) = (← m.read str2) else return false

/-- `*(unsigned char *)str1 - *(unsigned char *)str2`. -/
def difference (str1 str2 : Word) : Noted Word ℤ := do
  return (← m.read str1).toNat - (← m.read str2).toNat

/-- `strcmp`, in at most `n` rounds of its loop. -/
def strcmpN : ℕ → Word → Word → Noted Word (Option ℤ)
  | 0, _, _ => return none
  | n + 1, str1, str2 => do
      if ← goesOn m str1 str2 then strcmpN n (str1 + 1) (str2 + 1)
      else return some (← difference m str1 str2)

/-- `strcmp`. -/
def strcmpAt (str1 str2 : Word) : Noted Word (Option ℤ) := strcmpN m span str1 str2

/-- `strncmp`, from `&s1[i]` and `&s2[i]` on, with `n` characters left. -/
def strncmpAt : ℕ → Word → Word → Noted Word ℤ
  | 0, _, _ => return 0
  | n + 1, s1, s2 => do
      if (← m.read s1) ≠ (← m.read s2) then difference m s1 s2
      else if (← m.read s1) = 0 then return 0
      else strncmpAt n (s1 + 1) (s2 + 1)

/-- `memcmp`, from `&p1[i]` and `&p2[i]` on, with `n` bytes left. -/
def memcmpOf : ℕ → Word → Word → ℤ
  | 0, _, _ => 0
  | n + 1, p1, p2 =>
      if m p1 ≠ m p2 then (m p1).toNat - (m p2).toNat else memcmpOf n (p1 + 1) (p2 + 1)

end Loops

end Mem

/-! ## The order -/

/-- `r` is negative, zero or positive as `s` is below, equal to or above `t`, lexicographically. -/
structure Orders (r : ℤ) (s t : List Byte) : Prop where
  neg_iff : r < 0 ↔ s < t
  zero_iff : r = 0 ↔ s = t
  pos_iff : 0 < r ↔ t < s

section Order

variable {c d : Byte} {r : ℤ} {s t : List Byte}

namespace Orders

theorem nil : Orders 0 [] [] := ⟨by simp, by simp, by simp⟩

/-- A character they share decides nothing. -/
theorem cons (h : Orders r s t) : Orders r (c :: s) (c :: t) := by
  have hlt : ∀ {u v : List Byte}, c :: u < c :: v ↔ u < v := by
    intro u v
    rw [List.cons_lt_cons_iff, or_iff_right (UInt8.lt_irrefl c), and_iff_right rfl]
  exact ⟨h.neg_iff.trans hlt.symm, h.zero_iff.trans (by simp), h.pos_iff.trans hlt.symm⟩

/-- The first difference decides. -/
theorem cons_of_ne (h : c ≠ d) : Orders (c.toNat - d.toNat) (c :: s) (d :: t) := by
  have hlt : ∀ {c d : Byte} {s t : List Byte}, c ≠ d → (c :: s < d :: t ↔ c.toNat < d.toNat) := by
    intro c d s t h
    rw [List.cons_lt_cons_iff, or_iff_left fun heq => h heq.1, UInt8.lt_iff_toNat_lt]
  have hne : c.toNat ≠ d.toNat := mt UInt8.toNat_inj.mp h
  refine ⟨?_, ?_, ?_⟩
  · rw [hlt h]
    omega
  · exact iff_of_false (by omega) fun heq => h (List.cons.inj heq).1
  · rw [hlt h.symm]
    omega

/-- **Where a comparison stops**: at the end of the first string, or at a difference. -/
theorem stop (h : ¬ (c ≠ 0 ∧ c = d)) : Orders (c.toNat - d.toNat)
    (if c = 0 then [] else c :: s) (if d = 0 then [] else d :: t) := by
  by_cases hc : c = 0
  · subst hc
    rw [if_pos rfl]
    by_cases hd : d = 0
    · subst hd
      rw [if_pos rfl]
      exact nil
    · have hpos : 0 < d.toNat := Nat.pos_of_ne_zero fun h0 => hd (UInt8.toNat_inj.mp h0)
      rw [if_neg hd, UInt8.toNat_zero]
      exact ⟨iff_of_true (by omega) (List.nil_lt_cons _ _), iff_of_false (by omega) nofun,
        iff_of_false (by omega) (List.not_lt_nil _)⟩
  · have hne : c ≠ d := fun heq => h ⟨hc, heq⟩
    rw [if_neg hc]
    by_cases hd : d = 0
    · subst hd
      have hpos : 0 < c.toNat := Nat.pos_of_ne_zero fun h0 => hc (UInt8.toNat_inj.mp h0)
      rw [if_pos rfl, UInt8.toNat_zero]
      exact ⟨iff_of_false (by omega) (List.not_lt_nil _), iff_of_false (by omega) nofun,
        iff_of_true (by omega) (List.nil_lt_cons _ _)⟩
    · rw [if_neg hd]
      exact cons_of_ne hne

end Orders

/-- One round of `strcmp`, whatever is left. -/
theorem strcmp_eq (s t : List Byte) : strcmp s t =
    if s.headD 0 ≠ 0 ∧ s.headD 0 = t.headD 0 then strcmp s.tail t.tail
    else (s.headD 0).toNat - (t.headD 0).toNat := by
  cases s with
  | nil => rw [if_neg fun h => h.1 rfl]; rfl
  | cons c s => rfl

/-- **`strcmp` decides the order of two strings.** -/
theorem orders_strcmp : ∀ s t : List Byte, Orders (strcmp s t) (cstr s) (cstr t)
  | [], t => by
      rw [cstr_eq [], cstr_eq t, strcmp]
      exact Orders.stop (c := 0) fun h => h.1 rfl
  | c :: s, t => by
      rw [cstr_eq (c :: s), cstr_eq t, strcmp, List.headD_cons, List.tail_cons]
      by_cases hgo : c ≠ 0 ∧ c = t.headD 0
      · rw [if_pos hgo, if_neg hgo.1, ← hgo.2, if_neg hgo.1]
        exact (orders_strcmp s t.tail).cons
      · rw [if_neg hgo]
        exact Orders.stop hgo

theorem take_cstr (s : List Byte) (n : ℕ) : (cstr s).take (n + 1) =
    if s.headD 0 = 0 then [] else s.headD 0 :: (cstr s.tail).take n := by
  rw [cstr_eq]
  by_cases h : s.headD 0 = 0
  · rw [if_pos h, if_pos h, List.take_nil]
  · rw [if_neg h, if_neg h, List.take_succ_cons]

/-- **`strncmp` decides the order of their prefixes.** -/
theorem orders_strncmp (s t : List Byte) (n : ℕ) :
    Orders (strncmp s t n) ((cstr s).take n) ((cstr t).take n) := by
  induction n generalizing s t with
  | zero => exact Orders.nil
  | succ n ih =>
    rw [take_cstr, take_cstr, strncmp]
    by_cases hne : s.headD 0 ≠ t.headD 0
    · rw [if_pos hne]
      exact Orders.stop fun h => hne h.2
    · rw [if_neg hne, ← not_not.mp hne]
      by_cases h0 : s.headD 0 = 0
      · rw [if_pos h0, if_pos h0, if_pos h0]
        exact Orders.nil
      · rw [if_neg h0, if_neg h0, if_neg h0]
        exact (ih s.tail t.tail).cons

end Order

/-! ## The loops decide it -/

namespace Mem

variable {m : Mem} {a b : Word} {n k : ℕ} {s t : List Byte}

@[simp] theorem value_read (m : Mem) (a : Word) : (m.read a).value = m a := rfl

@[simp] theorem value_goesOn (m : Mem) (a b : Word) :
    (goesOn m a b).value = decide (m a ≠ 0 ∧ m a = m b) := by
  rw [goesOn, Noted.value_bind, Noted.value_ite, value_read]
  by_cases h : m a = 0
  · rw [if_neg (not_not.mpr h), decide_eq_false fun hand => hand.1 h]
    rfl
  · rw [if_pos h, Noted.value_bind, Noted.value_bind, Noted.value_pure, value_read, value_read]
    exact decide_eq_decide.mpr (and_iff_right h).symm

@[simp] theorem value_difference (m : Mem) (a b : Word) :
    (difference m a b).value = (m a).toNat - (m b).toNat := rfl

/-- A string begins with the byte it lies at. -/
theorem headD_of_cstrN (h : m.cstrN a n = some s) : s.headD 0 = m a := by
  cases n with
  | zero => cases h
  | succ n =>
    rw [cstrN] at h
    by_cases h0 : m a = 0
    · rw [if_pos h0, Option.some.injEq] at h
      rw [← h, h0]
      rfl
    · rw [if_neg h0, Option.map_eq_some_iff] at h
      obtain ⟨u, -, rfl⟩ := h
      rfl

/-- What is behind its first character is a string. -/
theorem cstrN_tail (h : m.cstrN a (n + 1) = some s) (h0 : m a ≠ 0) :
    m.cstrN (a + 1) n = some s.tail := by
  rw [cstrN, if_neg h0, Option.map_eq_some_iff] at h
  obtain ⟨u, hu, rfl⟩ := h
  exact hu

theorem value_strcmpN (hs : m.cstrN a n = some s) (ht : m.cstrN b n = some t) :
    (strcmpN m n a b).value = some (strcmp s t) := by
  induction n generalizing a b s t with
  | zero => cases hs
  | succ n ih =>
    rw [strcmpN, Noted.value_bind, Noted.value_ite, value_goesOn, strcmp_eq,
      headD_of_cstrN hs, headD_of_cstrN ht]
    by_cases hgo : m a ≠ 0 ∧ m a = m b
    · rw [if_pos (decide_eq_true hgo), if_pos hgo]
      exact ih (cstrN_tail hs hgo.1) (cstrN_tail ht (hgo.2 ▸ hgo.1))
    · rw [if_neg (mt of_decide_eq_true hgo), if_neg hgo]
      rfl

/-- **`strcmp` is the comparison of the strings it is given.** -/
theorem value_strcmpAt (hs : m.cstr? a = some s) (ht : m.cstr? b = some t) :
    (m.strcmpAt a b).value = some (strcmp s t) := value_strcmpN hs ht

/-- One round of `strncmp`. -/
theorem value_strncmpAt_succ : (strncmpAt m (n + 1) a b).value =
    if m a ≠ m b then ((m a).toNat - (m b).toNat : ℤ)
    else if m a = 0 then 0 else (strncmpAt m n (a + 1) (b + 1)).value := by
  rw [strncmpAt, Noted.value_bind, Noted.value_bind, Noted.value_ite, Noted.value_bind,
    Noted.value_ite]
  rfl

theorem value_strncmpN (hs : m.cstrN a k = some s) (ht : m.cstrN b k = some t) :
    (strncmpAt m n a b).value = strncmp s t n := by
  induction n generalizing a b s t k with
  | zero => rw [strncmp]; rfl
  | succ n ih =>
    rw [value_strncmpAt_succ, strncmp, headD_of_cstrN hs, headD_of_cstrN ht]
    by_cases hne : m a ≠ m b
    · rw [if_pos hne, if_pos hne]
    · rw [if_neg hne, if_neg hne]
      by_cases h0 : m a = 0
      · rw [if_pos h0, if_pos h0]
      · rw [if_neg h0, if_neg h0]
        cases k with
        | zero => cases hs
        | succ k => exact ih (cstrN_tail hs h0) (cstrN_tail ht (not_not.mp hne ▸ h0))

/-- **`strncmp` is the comparison of the strings it is given.** -/
theorem value_strncmpAt (hs : m.cstr? a = some s) (ht : m.cstr? b = some t) :
    (strncmpAt m n a b).value = strncmp s t n := value_strncmpN hs ht

/-- **Where no NUL is compared, `memcmp` answers as `strncmp`.** -/
theorem memcmpOf_eq (h : ∀ i < n, m (a + BitVec.ofNat 32 i) ≠ 0) :
    memcmpOf m n a b = (strncmpAt m n a b).value := by
  induction n generalizing a b with
  | zero => rfl
  | succ n ih =>
    have h0 := h 0 n.succ_pos
    rw [BitVec.add_zero] at h0
    rw [memcmpOf, value_strncmpAt_succ, if_neg h0,
      ih fun i hi => add_ofNat_succ a i ▸ h (i + 1) (Nat.succ_lt_succ hi)]

/-! ## What they read -/

/-- In front of their `i`-th characters neither string ends, and they do not differ. -/
def Agree (m : Mem) (a b : Word) (i : ℕ) : Prop :=
  ∀ j < i, m (a + BitVec.ofNat 32 j) = m (b + BitVec.ofNat 32 j) ∧ m (a + BitVec.ofNat 32 j) ≠ 0

theorem agree_zero : Agree m a b 0 := fun _ h => absurd h (Nat.not_lt_zero _)

theorem Agree.succ {i : ℕ} (h0 : m a = m b ∧ m a ≠ 0) (h : Agree m (a + 1) (b + 1) i) :
    Agree m a b (i + 1) := by
  intro j hj
  cases j with
  | zero => rwa [BitVec.add_zero, BitVec.add_zero]
  | succ j =>
    rw [add_ofNat_succ, add_ofNat_succ]
    exact h j (Nat.lt_of_succ_lt_succ hj)

section Reads

open Noted

variable {P : Word → Prop}

@[simp] theorem forall_read : Forall P (m.read a) ↔ P a := List.forall_mem_singleton

theorem forall_goesOn (ha : P a) (hb : P b) : Forall P (goesOn m a b) := by
  rw [goesOn, forall_bind_iff, forall_read, forall_ite_iff]
  exact ⟨ha, fun _ => by simp [ha, hb], fun _ => forall_pure _⟩

theorem forall_difference (ha : P a) (hb : P b) : Forall P (difference m a b) := by
  simp [difference, ha, hb]

/-- What holds of all that is read at the start, and behind characters that agree. -/
theorem forall_strcmpN (h : ∀ i, Agree m a b i →
    P (a + BitVec.ofNat 32 i) ∧ P (b + BitVec.ofNat 32 i)) : Forall P (strcmpN m n a b) := by
  induction n generalizing a b with
  | zero => exact forall_pure none
  | succ n ih =>
    have h0 := h 0 agree_zero
    rw [BitVec.add_zero, BitVec.add_zero] at h0
    rw [strcmpN, forall_bind_iff, forall_ite_iff, value_goesOn, decide_eq_true_eq]
    refine ⟨forall_goesOn h0.1 h0.2, fun hgo => ih fun i hi => ?_, fun _ => ?_⟩
    · rw [← add_ofNat_succ, ← add_ofNat_succ]
      exact h (i + 1) (hi.succ ⟨hgo.2, hgo.1⟩)
    · exact forall_bind_iff.mpr ⟨forall_difference h0.1 h0.2, forall_pure _⟩

theorem forall_strncmpAt (h : ∀ i < n, Agree m a b i →
    P (a + BitVec.ofNat 32 i) ∧ P (b + BitVec.ofNat 32 i)) : Forall P (strncmpAt m n a b) := by
  induction n generalizing a b with
  | zero => exact forall_pure 0
  | succ n ih =>
    have h0 := h 0 n.succ_pos agree_zero
    rw [BitVec.add_zero, BitVec.add_zero] at h0
    rw [strncmpAt, forall_bind_iff, forall_bind_iff, forall_read, forall_read, forall_ite_iff,
      forall_bind_iff, forall_read, forall_ite_iff, value_read, value_read]
    refine ⟨h0.1, h0.2, fun _ => forall_difference h0.1 h0.2, fun heq => ⟨h0.1,
      fun _ => forall_pure 0, fun hne => ih fun i hi hagree => ?_⟩⟩
    rw [← add_ofNat_succ, ← add_ofNat_succ]
    exact h (i + 1) (Nat.succ_lt_succ hi) (hagree.succ ⟨not_not.mp heq, hne⟩)

end Reads

/-- Their addresses: one string's or the other's, behind characters that agree. -/
def Ahead (m : Mem) (a b x : Word) (i : ℕ) : Prop :=
  Agree m a b i ∧ (x = a + BitVec.ofNat 32 i ∨ x = b + BitVec.ofNat 32 i)

/-- **The comparisons realise one order.**  On two strings, `strcmp` returns, with the sign of their
order; `strncmp` has the sign of the order of their prefixes, and `memcmp` the same where no string
ends; the first two read no further than the first NUL or the first difference. -/
theorem comparison_order (n : ℕ) (hs : m.cstr? a = some s) (ht : m.cstr? b = some t) :
    (∃ r, (m.strcmpAt a b).value = some r ∧ Orders r s t) ∧
    Orders (m.strncmpAt n a b).value (s.take n) (t.take n) ∧
    (n ≤ s.length → n ≤ t.length → (m.memcmpOf n a b).sign = (m.strncmpAt n a b).value.sign) ∧
    (∀ x ∈ (m.strcmpAt a b).notes, ∃ i, Ahead m a b x i) ∧
    ∀ x ∈ (m.strncmpAt n a b).notes, ∃ i < n, Ahead m a b x i := by
  have hcs : cstr s = s := cstr_eq_self_iff.mpr (cstr?_eq_some.mp hs).1
  have hct : cstr t = t := cstr_eq_self_iff.mpr (cstr?_eq_some.mp ht).1
  refine ⟨⟨strcmp s t, value_strcmpAt hs ht, ?_⟩, ?_, fun hn _ => ?_, ?_, ?_⟩
  · have hord := orders_strcmp s t
    rwa [hcs, hct] at hord
  · have hord := orders_strncmp s t n
    rwa [hcs, hct, ← value_strncmpAt hs ht] at hord
  · refine congrArg Int.sign (memcmpOf_eq fun i hi => ne_zero_of_cstr? hs (Within.add ?_))
    omega
  · exact forall_strcmpN fun i hi => ⟨⟨i, hi, Or.inl rfl⟩, ⟨i, hi, Or.inr rfl⟩⟩
  · exact forall_strncmpAt fun i hin hi => ⟨⟨i, hin, hi, Or.inl rfl⟩, ⟨i, hin, hi, Or.inr rfl⟩⟩

/-- `"ab"` at `0x1000`; at `0x2000` an `'a'` and a byte that is negative as a `char`. -/
def compared : Mem :=
  store (store (fun _ => 0) 0x1000 (str "ab")) 0x2000 [chr 'a', 0xff]

theorem comparison_order_compared :
    ∃ r, (compared.strcmpAt 0x1000 0x2000).value = some r ∧ r < 0 := by
  have hs : compared.cstr? 0x1000 = some (str "ab") :=
    cstr?_eq_some.mpr ⟨by decide, by decide, by decide +kernel⟩
  have ht : compared.cstr? 0x2000 = some [chr 'a', 0xff] :=
    cstr?_eq_some.mpr ⟨by decide, by decide, by decide +kernel⟩
  obtain ⟨r, hr, hord⟩ := (comparison_order 2 hs ht).1
  exact ⟨r, hr, hord.neg_iff.mpr (by decide)⟩

end Mem

end HuskyKernel
