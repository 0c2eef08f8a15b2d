import HuskyKernel.Logic.Span
import HuskyKernel.System.Memory

/-!
# System/Words — words in memory, and what a store leaves alone

Words lie in memory little-endian.  `store_apply` says what every address holds after a run of
stores; a read that meets none of the stored addresses is a read of the old memory.
-/

namespace HuskyKernel

namespace Mem

/-- The 16-bit word at `a`. -/
def word16 (m : Mem) (a : Word) : BitVec 16 := (m (a + 1)).toBitVec ++ (m a).toBitVec

/-- The 32-bit word at `a`. -/
def word (m : Mem) (a : Word) : Word :=
  (m (a + 3)).toBitVec ++ (m (a + 2)).toBitVec ++ (m (a + 1)).toBitVec ++ (m a).toBitVec

/-- The bytes of a 16-bit word. -/
def bytes16 (v : BitVec 16) : List Byte :=
  [UInt8.ofBitVec (v.extractLsb' 0 8), UInt8.ofBitVec (v.extractLsb' 8 8)]

/-- The bytes of a 32-bit word. -/
def bytes32 (v : Word) : List Byte :=
  [UInt8.ofBitVec (v.extractLsb' 0 8), UInt8.ofBitVec (v.extractLsb' 8 8),
    UInt8.ofBitVec (v.extractLsb' 16 8), UInt8.ofBitVec (v.extractLsb' 24 8)]

/-- `memset`. -/
def memset (m : Mem) (ptr : Word) (value : Byte) (num : ℕ) : Mem :=
  m.store ptr (List.replicate num value)

/-- The sum of `n` bytes from `a` on. -/
def sum (m : Mem) (a : Word) (n : ℕ) : Byte := (m.load a n).foldr (· + ·) 0

/-- The bytes `bs` lie at `a`. -/
def Holds (m : Mem) (a : Word) (bs : List Byte) : Prop := m.load a bs.length = bs

instance {m : Mem} {a : Word} {bs : List Byte} : Decidable (Holds m a bs) :=
  inferInstanceAs (Decidable (_ = _))

variable {m m' : Mem} {a x : Word}

/-! ## Stores -/

/-- **What an address holds after storing `bs` at `a`.** -/
theorem store_apply : ∀ {bs : List Byte} {m : Mem} {a : Word}, bs.length ≤ span →
    m.store a bs x = if Within a bs.length x then bs.getD (x - a).toNat 0 else m x
  | [], m, a, _ => by rw [store, if_neg]; exact Nat.not_lt_zero _
  | b :: bs, m, a, h => by
      rw [List.length_cons] at h
      rw [store, store_apply (by omega)]
      simp only [span] at h
      by_cases hxa : x = a
      · subst hxa
        have hout : ¬ Within (x + 1) bs.length x := by
          rw [Within]
          bv_omega
        rw [if_neg hout, if_pos (Within.start (by simp)), poke, Function.update_self,
          BitVec.sub_self]
        rfl
      · have hsub : (x - a).toNat = (x - (a + 1)).toNat + 1 := by bv_omega
        rw [poke, Function.update_of_ne hxa, hsub, List.getD_cons_succ]
        refine if_congr ?_ rfl rfl
        rw [Within, Within, hsub, List.length_cons, Nat.add_lt_add_iff_right]

/-- Outside the stored range nothing changes. -/
theorem store_of_not_within {bs : List Byte} (h : bs.length ≤ span)
    (hx : ¬ Within a bs.length x) : m.store a bs x = m x := by
  rw [store_apply h, if_neg hx]

theorem memset_of_not_within {v : Byte} {n : ℕ} (h : n ≤ span) (hx : ¬ Within a n x) :
    m.memset a v n x = m x := by
  rw [← List.length_replicate (n := n) (a := v)] at h hx
  exact store_of_not_within h hx

theorem memset_of_within {v : Byte} {n : ℕ} (h : n ≤ span) (hx : Within a n x) :
    m.memset a v n x = v := by
  rw [memset, store_apply (by rwa [List.length_replicate]), List.length_replicate, if_pos hx,
    List.getD_eq_getElem _ _ (by rwa [List.length_replicate]), List.getElem_replicate]

/-! ## Words -/

/-- A word depends on its own bytes only. -/
theorem word_congr (h : ∀ x, Within a 4 x → m x = m' x) : m.word a = m'.word a := by
  have h0 := h a (Within.start (by decide))
  have h1 := h (a + 1) (Within.add (k := 1) (by decide))
  have h2 := h (a + 2) (Within.add (k := 2) (by decide))
  have h3 := h (a + 3) (Within.add (k := 3) (by decide))
  rw [word, word, h0, h1, h2, h3]

/-- Words of the same bytes, wherever they lie. -/
theorem word_eq_of_bytes {b : Word}
    (h : ∀ k < 4, m (a + BitVec.ofNat 32 k) = m' (b + BitVec.ofNat 32 k)) :
    m.word a = m'.word b := by
  have h0 := h 0 (by decide)
  rw [show a + BitVec.ofNat 32 0 = a from BitVec.add_zero a,
    show b + BitVec.ofNat 32 0 = b from BitVec.add_zero b] at h0
  rw [word, word, h0, show m (a + 1) = m' (b + 1) from h 1 (by decide),
    show m (a + 2) = m' (b + 2) from h 2 (by decide),
    show m (a + 3) = m' (b + 3) from h 3 (by decide)]

theorem word16_eq_of_bytes {b : Word}
    (h : ∀ k < 2, m (a + BitVec.ofNat 32 k) = m' (b + BitVec.ofNat 32 k)) :
    m.word16 a = m'.word16 b := by
  have h0 := h 0 (by decide)
  rw [show a + BitVec.ofNat 32 0 = a from BitVec.add_zero a,
    show b + BitVec.ofNat 32 0 = b from BitVec.add_zero b] at h0
  rw [word16, word16, h0, show m (a + 1) = m' (b + 1) from h 1 (by decide)]

/-- A word of zero bytes is zero. -/
theorem word_eq_zero (h : ∀ x, Within a 4 x → m x = 0) : m.word a = 0 := by
  have hzero : word (fun _ => 0) a = 0 := by
    simp only [word]
    decide
  rw [← hzero]
  exact word_congr h

theorem word16_congr (h : ∀ x, Within a 2 x → m x = m' x) : m.word16 a = m'.word16 a := by
  have h0 := h a (Within.start (by decide))
  have h1 := h (a + 1) (Within.add (k := 1) (by decide))
  rw [word16, word16, h0, h1]

/-- The `k`-th stored byte. -/
theorem store_add {bs : List Byte} {k : ℕ} (h : bs.length ≤ span) (hk : k < bs.length) :
    m.store a bs (a + BitVec.ofNat 32 k) = bs.getD k 0 := by
  have hsub : (a + BitVec.ofNat 32 k - a).toNat = k := by
    simp only [span] at h
    bv_omega
  rw [store_apply h, if_pos (Within.add hk), hsub]

/-! ## Loads -/

section Load

variable {b : Byte} {bs cs : List Byte}

theorem add_ofNat_succ (a : Word) (i : ℕ) :
    a + BitVec.ofNat 32 (i + 1) = a + 1 + BitVec.ofNat 32 i := by
  rw [Nat.add_comm i 1, BitVec.ofNat_add, ← BitVec.add_assoc]
  rfl

/-- The bytes loaded from `a`. -/
@[simp] theorem length_load : ∀ (n : ℕ) (a : Word), (m.load a n).length = n
  | 0, _ => rfl
  | n + 1, a => congrArg (· + 1) (length_load n (a + 1))

theorem getD_load : ∀ {n k : ℕ} (a : Word), k < n →
    (m.load a n).getD k 0 = m (a + BitVec.ofNat 32 k)
  | n + 1, 0, a, _ => congrArg m (BitVec.add_zero a).symm
  | n + 1, k + 1, a, hk => by
      rw [load, List.getD_cons_succ, getD_load (a + 1) (Nat.lt_of_succ_lt_succ hk), add_ofNat_succ]

theorem holds_cons : Holds m a (b :: bs) ↔ m a = b ∧ Holds m (a + 1) bs := List.cons_eq_cons

/-- Two runs of bytes lie at `a` if the one lies right behind the other. -/
theorem holds_append : Holds m a (bs ++ cs) ↔
    Holds m a bs ∧ Holds m (a + BitVec.ofNat 32 bs.length) cs := by
  induction bs generalizing a with
  | nil =>
    rw [List.nil_append, List.length_nil, BitVec.add_zero]
    exact (and_iff_right rfl).symm
  | cons b bs ih =>
    rw [List.cons_append, holds_cons, holds_cons, ih, and_assoc, List.length_cons, add_ofNat_succ]

theorem Holds.left (h : Holds m a (bs ++ cs)) : Holds m a bs := (holds_append.mp h).1

/-- **The string at an address**: what lies there, without a NUL, up to the first one. -/
theorem cstrN_eq_some {n : ℕ} :
    m.cstrN a n = some bs ↔ 0 ∉ bs ∧ bs.length < n ∧ Holds m a (bs ++ [0]) := by
  induction n generalizing a bs with
  | zero => simp [cstrN]
  | succ n ih =>
    by_cases ha : m a = 0
    · rw [cstrN, if_pos ha, Option.some.injEq]
      constructor
      · rintro rfl
        exact ⟨List.not_mem_nil, Nat.succ_pos n, holds_cons.mpr ⟨ha, rfl⟩⟩
      · rintro ⟨hbs, -, hholds⟩
        cases bs with
        | nil => rfl
        | cons b bs =>
          rw [List.cons_append, holds_cons, ha] at hholds
          exact absurd (hholds.1 ▸ List.mem_cons_self) hbs
    · rw [cstrN, if_neg ha, Option.map_eq_some_iff]
      constructor
      · rintro ⟨cs, hcs, rfl⟩
        obtain ⟨hcs, hlt, hholds⟩ := ih.mp hcs
        refine ⟨fun hmem => ?_, Nat.succ_lt_succ hlt, holds_cons.mpr ⟨rfl, hholds⟩⟩
        rcases List.mem_cons.mp hmem with heq | hmem
        · exact ha heq.symm
        · exact hcs hmem
      · rintro ⟨hbs, hlt, hholds⟩
        cases bs with
        | nil => exact absurd (holds_cons.mp hholds).1 ha
        | cons b bs =>
          obtain ⟨rfl, hrest⟩ := holds_cons.mp hholds
          exact ⟨bs, ih.mpr ⟨fun hmem => hbs (List.mem_cons_of_mem _ hmem),
            Nat.lt_of_succ_lt_succ hlt, hrest⟩, rfl⟩

theorem cstr?_eq_some :
    m.cstr? a = some bs ↔ 0 ∉ bs ∧ bs.length < span ∧ Holds m a (bs ++ [0]) := cstrN_eq_some

/-- What lies at `a` depends on the bytes there only. -/
theorem Holds.congr (h : Holds m a bs) (hm : ∀ k < bs.length,
    m' (a + BitVec.ofNat 32 k) = m (a + BitVec.ofNat 32 k)) : Holds m' a bs := by
  induction bs generalizing a with
  | nil => rfl
  | cons b bs ih =>
    obtain ⟨ha, hbs⟩ := holds_cons.mp h
    have h0 := hm 0 (Nat.succ_pos _)
    rw [show a + BitVec.ofNat 32 0 = a from BitVec.add_zero a, ha] at h0
    refine holds_cons.mpr ⟨h0, ih hbs fun k hk => ?_⟩
    rw [← add_ofNat_succ]
    exact hm (k + 1) (Nat.succ_lt_succ hk)

/-- A string depends on its own bytes only. -/
theorem cstrN_congr {n : ℕ} (h : m.cstrN a n = some bs)
    (hm : ∀ x, Within a (bs.length + 1) x → m' x = m x) : m'.cstrN a n = some bs := by
  obtain ⟨h0, hlen, hholds⟩ := cstrN_eq_some.mp h
  refine cstrN_eq_some.mpr ⟨h0, hlen, hholds.congr fun k hk => hm _ (Within.add ?_)⟩
  rwa [List.length_append] at hk

theorem cstr?_congr (h : m.cstr? a = some bs)
    (hm : ∀ x, Within a (bs.length + 1) x → m' x = m x) : m'.cstr? a = some bs :=
  cstrN_congr h hm

/-- Stored bytes lie where they were stored. -/
theorem holds_store (m : Mem) (a : Word) (h : bs.length ≤ span) : Holds (m.store a bs) a bs := by
  refine List.ext_getElem (length_load _ _) fun k hk hk' => ?_
  rw [← List.getD_eq_getElem _ 0 hk, ← List.getD_eq_getElem _ 0 hk', getD_load a hk',
    store_add h hk']

/-- **A stored string is read back.** -/
theorem cstr?_store (m : Mem) (a : Word) (h0 : 0 ∉ bs) (h : bs.length < span) :
    (m.store a (bs ++ [0])).cstr? a = some bs :=
  cstr?_eq_some.mpr ⟨h0, h, holds_store m a (by rw [List.length_append]; exact h)⟩

theorem sum_succ (n : ℕ) (a : Word) : m.sum a (n + 1) = m a + m.sum (a + 1) n := rfl

theorem sum_add (n k : ℕ) (a : Word) :
    m.sum a (n + k) = m.sum a n + m.sum (a + BitVec.ofNat 32 n) k := by
  induction n generalizing a with
  | zero =>
    rw [Nat.zero_add, BitVec.add_zero]
    exact (UInt8.zero_add _).symm
  | succ n ih => rw [Nat.add_right_comm, sum_succ, sum_succ, ih, UInt8.add_assoc, add_ofNat_succ]

theorem sum_eq_zero : ∀ {k : ℕ} {a : Word}, (∀ i < k, m (a + BitVec.ofNat 32 i) = 0) →
    m.sum a k = 0
  | 0, _, _ => rfl
  | k + 1, a, h => by
      have h0 := h 0 (Nat.succ_pos k)
      rw [BitVec.add_zero] at h0
      have hrest : m.sum (a + 1) k = 0 := sum_eq_zero fun i hi =>
        add_ofNat_succ a i ▸ h (i + 1) (Nat.succ_lt_succ hi)
      rw [sum_succ, h0, hrest]
      rfl

end Load

/-! ## Words -/

theorem length_bytes16_le (v : BitVec 16) : (bytes16 v).length ≤ span := show 2 ≤ span by decide

theorem length_bytes32_le (v : Word) : (bytes32 v).length ≤ span := show 4 ≤ span by decide

/-- **A stored word is read back.** -/
theorem word_store (v : Word) : (m.store a (bytes32 v)).word a = v := by
  have hget : ∀ k < 4, m.store a (bytes32 v) (a + BitVec.ofNat 32 k) = (bytes32 v).getD k 0 :=
    fun k hk => store_add (length_bytes32_le v) hk
  have h0 := hget 0 (by decide)
  rw [show a + BitVec.ofNat 32 0 = a from BitVec.add_zero a] at h0
  rw [word, h0, show a + 1 = a + BitVec.ofNat 32 1 from rfl,
    show a + 2 = a + BitVec.ofNat 32 2 from rfl, show a + 3 = a + BitVec.ofNat 32 3 from rfl,
    hget 1 (by decide), hget 2 (by decide), hget 3 (by decide)]
  have h16 : v.extractLsb' 24 8 ++ v.extractLsb' 16 8 = v.extractLsb' 16 16 :=
    BitVec.extractLsb'_append_extractLsb'_eq_extractLsb' rfl
  have h24 : v.extractLsb' 16 16 ++ v.extractLsb' 8 8 = v.extractLsb' 8 24 :=
    BitVec.extractLsb'_append_extractLsb'_eq_extractLsb' rfl
  have h32 : v.extractLsb' 8 24 ++ v.extractLsb' 0 8 = v.extractLsb' 0 32 :=
    BitVec.extractLsb'_append_extractLsb'_eq_extractLsb' rfl
  change v.extractLsb' 24 8 ++ v.extractLsb' 16 8 ++ v.extractLsb' 8 8 ++ v.extractLsb' 0 8 = v
  rw [h16, h24, h32, BitVec.extractLsb'_eq_self]

theorem word16_store (v : BitVec 16) : (m.store a (bytes16 v)).word16 a = v := by
  have hget : ∀ k < 2, m.store a (bytes16 v) (a + BitVec.ofNat 32 k) = (bytes16 v).getD k 0 :=
    fun k hk => store_add (length_bytes16_le v) hk
  have h0 := hget 0 (by decide)
  rw [show a + BitVec.ofNat 32 0 = a from BitVec.add_zero a] at h0
  have h16 : v.extractLsb' 8 8 ++ v.extractLsb' 0 8 = v.extractLsb' 0 16 :=
    BitVec.extractLsb'_append_extractLsb'_eq_extractLsb' rfl
  rw [word16, h0, show a + 1 = a + BitVec.ofNat 32 1 from rfl, hget 1 (by decide)]
  change v.extractLsb' 8 8 ++ v.extractLsb' 0 8 = v
  rw [h16, BitVec.extractLsb'_eq_self]

end Mem

end HuskyKernel
