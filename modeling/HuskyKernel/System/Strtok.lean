import HuskyKernel.Logic.Runs
import HuskyKernel.System.Words

/-!
# System/Strtok — cutting a string into tokens in place

`strtok` keeps its place between calls in the static `saved_token` and marks the end of a token by a
NUL stored over the delimiter behind it.  `calls` is what a caller does: one call with the string,
all the others with NULL.  `calls_runs` reads that off the text alone: the tokens are the text's
maximal runs without a delimiter, and nothing but the byte behind each of them changes.
-/

namespace HuskyKernel

namespace Mem

/-- `for (a = accept; *a != '\0'; ++a) if (c == *a) break;`: is `c` one of the bytes at `a`? -/
def amongN (m : Mem) (c : Byte) (a : Word) : ℕ → Option Bool
  | 0 => none
  | n + 1 =>
      if m a = 0 then some false
      else if c = m a then some true
      else m.amongN c (a + 1) n

/-- The outer loop of `strspn`. -/
def strspnN (m : Mem) (accept p count : Word) : ℕ → Option Word
  | 0 => none
  | n + 1 =>
      if m p = 0 then some count
      else (m.amongN (m p) accept span).bind fun hit =>
        if hit then m.strspnN accept (p + 1) (count + 1) n else some count

/-- `strspn`: how many bytes at `str` are bytes of `accept`. -/
def strspn (m : Mem) (str accept : Word) : Option Word := m.strspnN accept str 0 span

/-- The outer loop of `strpbrk`. -/
def strpbrkN (m : Mem) (delimiters str : Word) : ℕ → Option Word
  | 0 => none
  | n + 1 =>
      if m str = 0 then some 0
      else (m.amongN (m str) delimiters span).bind fun hit =>
        if hit then some str else m.strpbrkN delimiters (str + 1) n

/-- `strpbrk`: the first byte at `str` that is one of `delimiters`, or NULL. -/
def strpbrk (m : Mem) (str delimiters : Word) : Option Word := m.strpbrkN delimiters str span

end Mem

/-- The memory and the pointer `strtok` keeps between calls. -/
structure Strtok where
  mem : Mem
  saved_token : Word

namespace Strtok

/-- `strtok`. -/
def strtok (t : Strtok) (str delimiters : Word) : Option (Word × Strtok) :=
  if str = 0 ∧ t.saved_token = 0 then some (0, t)
  else
    let str := if str = 0 then t.saved_token else str
    (t.mem.strspn str delimiters).bind fun n =>
      let token_start := str + n
      if t.mem token_start = 0 then some (0, { t with saved_token := 0 })
      else
        (t.mem.strpbrk token_start delimiters).map fun str =>
          if str = 0 then (token_start, { t with saved_token := 0 })
          else (token_start, ⟨t.mem.poke str 0, str + 1⟩)

/-- `n` calls: the first one with `str`, the others with NULL. -/
def calls (t : Strtok) (str delimiters : Word) : ℕ → Option (List Word × Strtok)
  | 0 => some ([], t)
  | n + 1 =>
      (t.strtok str delimiters).bind fun (token, t) =>
        (t.calls 0 delimiters n).map fun (tokens, t) => (token :: tokens, t)

end Strtok

variable {m : Mem} {a d s p c : Word} {b y : Byte} {text delims xs ys : List Byte} {k n i j : ℕ}

/-! ## The two scans -/

namespace Mem

theorem amongN_of_cstrN (h : m.cstrN a n = some xs) : m.amongN b a n = some (decide (b ∈ xs)) := by
  induction n generalizing a xs with
  | zero => cases h
  | succ n ih =>
    rw [cstrN] at h
    rw [amongN]
    by_cases ha : m a = 0
    · rw [if_pos ha] at h ⊢
      obtain rfl := Option.some.inj h
      rfl
    · rw [if_neg ha] at h ⊢
      obtain ⟨ys, hys, rfl⟩ := Option.map_eq_some_iff.mp h
      by_cases hb : b = m a
      · rw [if_pos hb, decide_eq_true (hb ▸ List.mem_cons_self)]
      · rw [if_neg hb, ih hys]
        simp [hb]

theorem among_of_cstr? (h : m.cstr? a = some xs) : m.amongN b a span = some (decide (b ∈ xs)) :=
  amongN_of_cstrN h

/-- `strspn` counts the bytes of a run of delimiters. -/
theorem strspnN_append (hd : m.cstr? d = some delims) (hxs : ∀ x ∈ xs, x ∈ delims)
    (hy : y ∉ delims) (h : Holds m p (xs ++ y :: ys)) (hn : xs.length < n) :
    m.strspnN d p c n = some (c + BitVec.ofNat 32 xs.length) := by
  induction xs generalizing p c n with
  | nil =>
    obtain ⟨n, rfl⟩ := Nat.exists_eq_succ_of_ne_zero (Nat.ne_zero_of_lt hn)
    obtain ⟨hp, -⟩ := holds_cons.mp h
    rw [strspnN, List.length_nil, BitVec.add_zero]
    by_cases h0 : m p = 0
    · rw [if_pos h0]
    · rw [if_neg h0, among_of_cstr? hd, hp, decide_eq_false hy]
      rfl
  | cons x xs ih =>
    obtain ⟨n, rfl⟩ := Nat.exists_eq_succ_of_ne_zero (Nat.ne_zero_of_lt hn)
    obtain ⟨hp, hrest⟩ := holds_cons.mp h
    have hx := hxs x List.mem_cons_self
    have h0 : m p ≠ 0 := fun h0 => (cstr?_eq_some.mp hd).1 (h0 ▸ hp ▸ hx)
    rw [strspnN, if_neg h0, among_of_cstr? hd, hp, decide_eq_true hx]
    exact (ih (fun z hz => hxs z (List.mem_cons_of_mem _ hz)) hrest
      (Nat.lt_of_succ_lt_succ hn)).trans (by rw [List.length_cons, add_ofNat_succ])

/-- `strpbrk` stops at the delimiter behind a run of other bytes, or finds none. -/
theorem strpbrkN_append (hd : m.cstr? d = some delims) (hxs : ∀ x ∈ xs, x ≠ 0 ∧ x ∉ delims)
    (hy : y = 0 ∨ y ∈ delims) (h : Holds m p (xs ++ y :: ys)) (hn : xs.length < n) :
    m.strpbrkN d p n = some (if y = 0 then 0 else p + BitVec.ofNat 32 xs.length) := by
  induction xs generalizing p n with
  | nil =>
    obtain ⟨n, rfl⟩ := Nat.exists_eq_succ_of_ne_zero (Nat.ne_zero_of_lt hn)
    obtain ⟨hp, -⟩ := holds_cons.mp h
    rw [strpbrkN, List.length_nil, BitVec.add_zero, hp]
    by_cases h0 : y = 0
    · rw [if_pos h0, if_pos h0]
    · rw [if_neg h0, if_neg h0, among_of_cstr? hd, decide_eq_true (hy.resolve_left h0)]
      rfl
  | cons x xs ih =>
    obtain ⟨n, rfl⟩ := Nat.exists_eq_succ_of_ne_zero (Nat.ne_zero_of_lt hn)
    obtain ⟨hp, hrest⟩ := holds_cons.mp h
    obtain ⟨h0, hx⟩ := hxs x List.mem_cons_self
    rw [strpbrkN, hp, if_neg h0, among_of_cstr? hd, decide_eq_false hx]
    refine (ih (fun z hz => hxs z (List.mem_cons_of_mem _ hz)) hrest
      (Nat.lt_of_succ_lt_succ hn)).trans ?_
    rw [List.length_cons, add_ofNat_succ]

/-- A byte of a token: not a delimiter. -/
def isWord (delims : List Byte) (b : Byte) : Bool := decide (b ∉ delims)

@[simp] theorem isWord_iff : isWord delims b = true ↔ b ∉ delims := decide_eq_true_iff

@[simp] theorem isWord_eq_false : isWord delims b = false ↔ b ∈ delims := by
  rw [isWord, decide_eq_false_iff_not, not_not]

theorem strspn_eq (hd : m.cstr? d = some delims) (h : Holds m p (text ++ [0]))
    (hn : text.length < span) :
    m.strspn p d = some (BitVec.ofNat 32 (text.takeWhile (fun c => !isWord delims c)).length) := by
  have hlen : (text.takeWhile (fun c => !isWord delims c)).length ≤ text.length :=
    (List.takeWhile_prefix _).length_le
  have hgap : ∀ x ∈ text.takeWhile (fun c => !isWord delims c), x ∈ delims := fun x hx => by
    simpa using List.mem_takeWhile_imp hx
  have hstop : (text.dropWhile (fun c => !isWord delims c)).headD 0 ∉ delims := by
    have h0 := Scan.headD_dropWhile (l := text) (p := fun c => !isWord delims c) (d := 0)
      (by simpa using (cstr?_eq_some.mp hd).1)
    simpa using h0
  have hsplit : text ++ [0] = text.takeWhile (fun c => !isWord delims c) ++
      ((text.dropWhile (fun c => !isWord delims c)).headD 0 ::
        (text.dropWhile (fun c => !isWord delims c) ++ [0]).tail) := by
    conv_lhs => rw [← List.takeWhile_append_dropWhile (p := fun c => !isWord delims c) (l := text)]
    rw [List.append_assoc]
    cases text.dropWhile (fun c => !isWord delims c) <;> rfl
  rw [hsplit] at h
  rw [strspn, strspnN_append hd hgap hstop h (Nat.lt_of_le_of_lt hlen hn)]
  exact congrArg some (BitVec.zero_add _)

theorem strpbrk_eq (hd : m.cstr? d = some delims) (h0 : 0 ∉ text) (h : Holds m p (text ++ [0]))
    (hn : text.length < span) :
    m.strpbrk p d = some (if text.dropWhile (isWord delims) = [] then 0
      else p + BitVec.ofNat 32 (text.takeWhile (isWord delims)).length) := by
  have hlen : (text.takeWhile (isWord delims)).length ≤ text.length :=
    (List.takeWhile_prefix _).length_le
  have hword : ∀ x ∈ text.takeWhile (isWord delims), x ≠ 0 ∧ x ∉ delims := fun x hx =>
    ⟨fun hx0 => h0 (hx0 ▸ (List.takeWhile_prefix _).subset hx),
      by simpa using List.mem_takeWhile_imp hx⟩
  have hsplit : text ++ [0] =
      text.takeWhile (isWord delims) ++ (text.dropWhile (isWord delims) ++ [0]) := by
    rw [← List.append_assoc, List.takeWhile_append_dropWhile]
  rw [hsplit] at h
  cases hrest : text.dropWhile (isWord delims) with
  | nil =>
    rw [hrest] at h
    rw [strpbrk, strpbrkN_append hd hword (Or.inl rfl) h (Nat.lt_of_le_of_lt hlen hn)]
    rfl
  | cons y ys =>
    rw [hrest] at h
    have hne : text.dropWhile (isWord delims) ≠ [] := hrest ▸ List.cons_ne_nil y ys
    have hy : y ∈ delims := by
      simpa [hrest] using List.head_dropWhile_not (isWord delims) hne
    have hy0 : y ≠ 0 := fun hy0 => (cstr?_eq_some.mp hd).1 (hy0 ▸ hy)
    rw [strpbrk, strpbrkN_append hd hword (Or.inr hy) h (Nat.lt_of_le_of_lt hlen hn),
      if_neg hy0, if_neg (List.cons_ne_nil y ys)]

/-- What lies further on in a string. -/
theorem holds_drop (h : Holds m (s + BitVec.ofNat 32 k) (text.drop k ++ [0])) (hki : k ≤ i)
    (hi : i ≤ text.length) : Holds m (s + BitVec.ofNat 32 i) (text.drop i ++ [0]) := by
  obtain ⟨n, rfl⟩ := Nat.exists_eq_add_of_le hki
  have hsplit : text.drop k = (text.drop k).take n ++ text.drop (k + n) := by
    rw [← List.drop_drop, List.take_append_drop]
  rw [hsplit, List.append_assoc] at h
  have hlen : ((text.drop k).take n).length = n := by
    rw [List.length_take, List.length_drop]
    omega
  have hrest := (holds_append.mp h).2
  rwa [hlen, BitVec.add_assoc, ← BitVec.ofNat_add] at hrest

/-- The byte at an index of a string, the NUL at its end included. -/
theorem holds_apply (h : Holds m (s + BitVec.ofNat 32 k) (text.drop k ++ [0])) (hki : k ≤ i)
    (hi : i ≤ text.length) : m (s + BitVec.ofNat 32 i) = text.getD i 0 := by
  have hrest := holds_drop h hki hi
  rcases Nat.eq_or_lt_of_le hi with rfl | hlt
  · rw [List.drop_length] at hrest
    rw [List.getD_eq_default _ _ (Nat.le_refl _)]
    exact (holds_cons.mp hrest).1
  · rw [List.drop_eq_getElem_cons hlt, List.cons_append] at hrest
    rw [List.getD_eq_getElem _ _ hlt]
    exact (holds_cons.mp hrest).1

end Mem

namespace Strtok

open Mem Scan

variable {t : Strtok}

/-! ## One call -/

/-- What `strtok` needs: a string inside the address space and not at NULL, a string of delimiters,
and `restrict`: the two are different objects. -/
structure Tokens (m : Mem) (s d : Word) (text delims : List Byte) : Prop where
  ne_null : s ≠ 0
  fits : s.toNat + text.length < 2 ^ 32
  holds_text : m.cstr? s = some text
  holds_delims : m.cstr? d = some delims
  apart : ∀ x, Within d (delims.length + 1) x → ¬ Within s (text.length + 1) x

/-- `strtok` is about to go on at index `k` of the string. -/
structure At (t : Strtok) (str s d : Word) (text delims : List Byte) (k : ℕ) : Prop where
  ne_null : s ≠ 0
  fits : s.toNat + text.length < 2 ^ 32
  no_nul : 0 ∉ text
  le : k ≤ text.length
  start : (if str = 0 then t.saved_token else str) = s + BitVec.ofNat 32 k
  holds_text : Holds t.mem (s + BitVec.ofNat 32 k) (text.drop k ++ [0])
  holds_delims : t.mem.cstr? d = some delims

namespace At

theorem add_scan : s + BitVec.ofNat 32 k +
      BitVec.ofNat 32 (scanned (fun c => !isWord delims c) text k).length =
    s + BitVec.ofNat 32 (scan (fun c => !isWord delims c) text k) := by
  rw [scan, BitVec.ofNat_add, BitVec.add_assoc]

variable (h : At t p s d text delims k)

include h

theorem add_ne_null (hi : i ≤ text.length) : s + BitVec.ofNat 32 i ≠ 0 := by
  have hs := h.ne_null
  have hfits := h.fits
  bv_omega

theorem strtok_eq : t.strtok p d =
    (t.mem.strspn (s + BitVec.ofNat 32 k) d).bind fun n =>
      if t.mem (s + BitVec.ofNat 32 k + n) = 0 then some (0, { t with saved_token := 0 })
      else
        (t.mem.strpbrk (s + BitVec.ofNat 32 k + n) d).map fun str =>
          if str = 0 then (s + BitVec.ofNat 32 k + n, { t with saved_token := 0 })
          else (s + BitVec.ofNat 32 k + n, ⟨t.mem.poke str 0, str + 1⟩) := by
  have hne := h.add_ne_null h.le
  have hnot : ¬ (p = 0 ∧ t.saved_token = 0) := by
    rintro ⟨hstr, hsaved⟩
    have hstart := h.start
    rw [if_pos hstr, hsaved] at hstart
    exact hne hstart.symm
  rw [strtok, if_neg hnot, h.start]

/-- `strspn` brings the cursor to the start of the next token, or to the end of the string. -/
theorem strspn : t.mem.strspn (s + BitVec.ofNat 32 k) d =
    some (BitVec.ofNat 32 (scanned (fun c => !isWord delims c) text k).length) := by
  have hfits := h.fits
  refine strspn_eq h.holds_delims h.holds_text ?_
  rw [List.length_drop, span]
  omega

/-- The index where the next token starts, or the end of the string. -/
theorem strspn_start : t.mem.strspn (s + BitVec.ofNat 32 k) d =
      some (BitVec.ofNat 32 (scanned (fun c => !isWord delims c) text k).length) ∧
    t.mem (s + BitVec.ofNat 32 (scan (fun c => !isWord delims c) text k)) =
      text.getD (scan (fun c => !isWord delims c) text k) 0 :=
  ⟨h.strspn, holds_apply h.holds_text le_scan (scan_le_length h.le)⟩

/-- **Nothing but delimiters left**: NULL, and no place kept. -/
theorem strtok_end (hend : ¬ scan (fun c => !isWord delims c) text k < text.length) :
    t.strtok p d = some (0, { t with saved_token := 0 }) := by
  obtain ⟨hstrspn, hbyte⟩ := h.strspn_start
  rw [List.getD_eq_default _ _ (Nat.le_of_not_lt hend)] at hbyte
  rw [h.strtok_eq, hstrspn, Option.bind_some, add_scan, hbyte, if_pos rfl]

/-- **The next token**, and what becomes of the byte behind it. -/
theorem strtok_token {i j : ℕ} (hi : scan (fun c => !isWord delims c) text k = i)
    (hj : scan (isWord delims) text i = j) (hlt : i < text.length) :
    t.strtok p d = some (s + BitVec.ofNat 32 i,
      if j < text.length then ⟨t.mem.poke (s + BitVec.ofNat 32 j) 0, s + BitVec.ofNat 32 (j + 1)⟩
      else { t with saved_token := 0 }) := by
  obtain ⟨hstrspn, hbyte⟩ := h.strspn_start
  have hki : k ≤ i := hi ▸ le_scan
  have hjle : j ≤ text.length := hj ▸ scan_le_length hlt.le
  rw [hi, List.getD_eq_getElem _ _ hlt] at hbyte
  have hne : t.mem (s + BitVec.ofNat 32 i) ≠ 0 := fun h0 =>
    h.no_nul (h0 ▸ hbyte ▸ List.getElem_mem hlt)
  have hfits := h.fits
  have hstrpbrk := strpbrk_eq h.holds_delims
    (fun hmem => h.no_nul (List.drop_subset i text hmem))
    (holds_drop h.holds_text hki hlt.le) (by rw [List.length_drop, span]; omega)
  have hrest : (text.drop i).dropWhile (isWord delims) = text.drop j := hj ▸ drop_scan.symm
  have hlen : s + BitVec.ofNat 32 i +
      BitVec.ofNat 32 ((text.drop i).takeWhile (isWord delims)).length =
        s + BitVec.ofNat 32 j := by
    rw [BitVec.add_assoc, ← BitVec.ofNat_add]
    exact congrArg (s + BitVec.ofNat 32 ·) hj
  rw [hrest, hlen] at hstrpbrk
  rw [h.strtok_eq, hstrspn, Option.bind_some, add_scan, hi, if_neg hne, hstrpbrk, Option.map_some]
  by_cases hjlt : j < text.length
  · have hdrop : text.drop j ≠ [] := fun hnil => by
      rw [List.drop_eq_nil_iff] at hnil
      omega
    have hsucc : s + BitVec.ofNat 32 j + 1 = s + BitVec.ofNat 32 (j + 1) := by
      rw [BitVec.ofNat_add, ← BitVec.add_assoc]
      rfl
    simp only [if_neg hdrop, if_neg (h.add_ne_null hjle), if_pos hjlt, hsucc]
  · have hdrop : text.drop j = [] := List.drop_eq_nil_of_le (Nat.le_of_not_lt hjlt)
    simp only [if_pos hdrop, if_true, if_neg hjlt]

end At

/-! ## All calls -/

/-- The memory with a NUL behind each of the runs, where the text goes on there. -/
def cut (m : Mem) (s : Word) (n : ℕ) (rs : List (ℕ × ℕ)) : Mem := fun x =>
  if ∃ r ∈ rs, r.2 < n ∧ x = s + BitVec.ofNat 32 r.2 then 0 else m x

theorem cut_nil : cut m s n [] = m := by
  funext x
  rw [cut, if_neg]
  rintro ⟨r, hr, -⟩
  exact List.not_mem_nil hr

theorem cut_cons_of_lt {rs : List (ℕ × ℕ)} (hj : j < n) :
    cut m s n ((i, j) :: rs) = cut (m.poke (s + BitVec.ofNat 32 j) 0) s n rs := by
  funext x
  simp only [cut, List.exists_mem_cons_iff, poke, Function.update_apply]
  by_cases hrs : ∃ r ∈ rs, r.2 < n ∧ x = s + BitVec.ofNat 32 r.2
  · rw [if_pos (Or.inr hrs), if_pos hrs]
  · by_cases hx : x = s + BitVec.ofNat 32 j
    · rw [if_pos (Or.inl ⟨hj, hx⟩), if_neg hrs, if_pos hx]
    · rw [if_neg (not_or.mpr ⟨fun h => hx h.2, hrs⟩), if_neg hrs, if_neg hx]

theorem cut_cons_of_not_lt {rs : List (ℕ × ℕ)} (hj : ¬ j < n) :
    cut m s n ((i, j) :: rs) = cut m s n rs := by
  funext x
  simp only [cut, List.exists_mem_cons_iff]
  exact if_congr (or_iff_right fun h => hj h.1) rfl rfl

/-- One call more: `strtok` itself, and the calls that follow with NULL. -/
theorem calls_succ {token : Word} {t' : Strtok} (h : t.strtok p d = some (token, t')) :
    t.calls p d (n + 1) = (t'.calls 0 d n).map fun r => (token :: r.1, r.2) := by
  rw [calls, h]
  rfl

/-- With no place kept, there is no further token. -/
theorem calls_null (h : t.saved_token = 0) (n : ℕ) :
    t.calls 0 d n = some (List.replicate n 0, t) := by
  induction n with
  | zero => rfl
  | succ n ih =>
    rw [calls_succ (by rw [strtok, if_pos ⟨rfl, h⟩]), ih]
    rfl

/-- The place `strtok` keeps behind a token. -/
theorem At.next (h : At t p s d text delims k)
    (hapart : ∀ x, Within d (delims.length + 1) x → ¬ Within s (text.length + 1) x)
    (hkj : k ≤ j) (hj : j < text.length) :
    At ⟨t.mem.poke (s + BitVec.ofNat 32 j) 0, s + BitVec.ofNat 32 (j + 1)⟩ 0 s d text delims
      (j + 1) where
  ne_null := h.ne_null
  fits := h.fits
  no_nul := h.no_nul
  le := hj
  start := if_pos rfl
  holds_text := by
    have hfits := h.fits
    refine (holds_drop h.holds_text (by omega) hj).congr fun n hn => ?_
    rw [List.length_append, List.length_drop, List.length_singleton] at hn
    refine Function.update_of_ne ?_ _ _
    bv_omega
  holds_delims := cstr?_congr h.holds_delims fun x hx => by
    refine Function.update_of_ne ?_ _ _
    rintro rfl
    exact hapart _ hx (Within.add (by omega))

/-- **The tokens are the maximal runs**, and the memory is cut behind each. -/
theorem calls_runs (h : At t p s d text delims k)
    (hapart : ∀ x, Within d (delims.length + 1) x → ¬ Within s (text.length + 1) x) (n : ℕ) :
    ∃ q, t.calls p d n = some
      (((runs (isWord delims) text k).map fun r => s + BitVec.ofNat 32 r.1).take n ++
        List.replicate (n - (runs (isWord delims) text k).length) 0,
      ⟨cut t.mem s text.length ((runs (isWord delims) text k).take n), q⟩) := by
  induction n generalizing t p k with
  | zero =>
    refine ⟨t.saved_token, ?_⟩
    rw [List.take_zero, List.take_zero, cut_nil, Nat.zero_sub]
    rfl
  | succ n ih =>
    by_cases hlt : scan (fun c => !isWord delims c) text k < text.length
    case neg =>
      rw [Run.runs_of_not_lt hlt, calls_succ (h.strtok_end hlt), List.take_nil, cut_nil]
      refine ⟨0, ?_⟩
      rw [calls_null rfl]
      rfl
    have htoken := h.strtok_token rfl rfl hlt
    have hki : k ≤ scan (fun c => !isWord delims c) text k := le_scan
    rw [Run.runs_of_lt hlt, calls_succ htoken]
    generalize scan (fun c => !isWord delims c) text k = i at *
    have hij : i ≤ scan (isWord delims) text i := le_scan
    generalize scan (isWord delims) text i = j at *
    rw [List.map_cons, List.take_succ_cons, List.take_succ_cons, List.length_cons,
      Nat.add_sub_add_right]
    by_cases hj : j < text.length
    · obtain ⟨q, hq⟩ := ih (h.next hapart (hki.trans hij) hj)
      refine ⟨q, ?_⟩
      rw [if_pos hj, hq, cut_cons_of_lt hj]
      rfl
    · have hnone : runs (isWord delims) text (j + 1) = [] :=
        Run.runs_of_not_lt fun hlt => hj (by
          have hle : j + 1 ≤ scan (fun c => !isWord delims c) text (j + 1) := le_scan
          omega)
      refine ⟨0, ?_⟩
      rw [if_neg hj, hnone, calls_null rfl, cut_cons_of_not_lt hj, List.map_nil, List.take_nil,
        List.take_nil, cut_nil]
      rfl

/-! ## What is left in memory -/

section Left

variable {rs : List (ℕ × ℕ)}

/-- Outside the string nothing changes. -/
theorem cut_of_not_within {x : Word} (hx : ¬ Within s (n + 1) x) : cut m s n rs x = m x := by
  rw [cut, if_neg]
  rintro ⟨r, -, hlt, rfl⟩
  exact hx (Within.add (by omega))

/-- Which byte of the string is cut. -/
theorem cut_add (hs : s.toNat + n < 2 ^ 32) (hk : k ≤ n) :
    cut m s n rs (s + BitVec.ofNat 32 k) =
      if ∃ r ∈ rs, r.2 < n ∧ r.2 = k then 0 else m (s + BitVec.ofNat 32 k) := by
  rw [cut]
  refine if_congr (exists_congr fun r => and_congr_right fun _ => and_congr_right fun hr => ?_)
    rfl rfl
  constructor
  · intro heq
    bv_omega
  · rintro rfl
    rfl

variable (h : Tokens m s d text delims)

include h

theorem Tokens.at_zero (hmem : t.mem = m) : At t s s d text delims 0 where
  ne_null := h.ne_null
  fits := h.fits
  no_nul := (cstr?_eq_some.mp h.holds_text).1
  le := Nat.zero_le _
  start := (if_neg h.ne_null).trans (BitVec.add_zero s).symm
  holds_text := by
    rw [hmem, show s + BitVec.ofNat 32 0 = s from BitVec.add_zero s]
    exact (cstr?_eq_some.mp h.holds_text).2.2
  holds_delims := hmem ▸ h.holds_delims

/-- **A returned token stays intact**, whatever else is cut. -/
theorem Tokens.cstr?_cut (hrs : ∀ r ∈ rs, Run (isWord delims) text r.1 r.2) (hij : (i, j) ∈ rs) :
    (cut m s text.length rs).cstr? (s + BitVec.ofNat 32 i) = some (text.extract i j) := by
  have hat : At ⟨m, 0⟩ s s d text delims 0 := h.at_zero rfl
  have hrun : Run (isWord delims) text i j := hrs _ hij
  have hlt := hrun.lt
  have hle := hrun.le_length
  have hbyte : m (s + BitVec.ofNat 32 j) = text.getD j 0 :=
    holds_apply hat.holds_text (Nat.zero_le j) hle
  have hfits := h.fits
  have hlen : (text.extract i j).length = j - i := by
    rw [List.extract_eq_take_drop, List.length_take, List.length_drop]
    omega
  refine cstr?_eq_some.mpr ⟨fun h0 => hat.no_nul ?_, by rw [hlen, span]; omega, ?_⟩
  · rw [List.extract_eq_take_drop] at h0
    exact List.drop_subset i text ((List.take_subset _ _) h0)
  refine holds_append.mpr ⟨?_, ?_⟩
  · have hhold := holds_drop hat.holds_text (Nat.zero_le i) (by omega)
    rw [← List.take_append_drop (j - i) (text.drop i), List.append_assoc,
      ← List.extract_eq_take_drop] at hhold
    refine hhold.left.congr fun n hn => ?_
    rw [hlen] at hn
    rw [BitVec.add_assoc, ← BitVec.ofNat_add, cut_add h.fits (by omega), if_neg]
    rintro ⟨r, hr, -, hrn⟩
    obtain ⟨a, ha, hword⟩ := hrun.all (i + n) (by omega) (by omega)
    rw [← hrn] at ha
    rw [(hrs r hr).right a ha] at hword
    cases hword
  · rw [hlen, BitVec.add_assoc, ← BitVec.ofNat_add, Nat.add_sub_cancel' hlt.le, holds_cons,
      cut_add h.fits hle]
    refine ⟨?_, rfl⟩
    rcases Nat.eq_or_lt_of_le hle with hend | hend
    · rw [hbyte, hend, List.getD_eq_default _ _ (Nat.le_refl _), ite_self]
    · rw [if_pos ⟨_, hij, hend, rfl⟩]

end Left

/-! ## Tokenization -/

/-- **`strtok` returns the tokens of a string and then NULL.**  The tokens are the maximal non-empty
runs without a delimiter, in order; the delimiter directly behind a returned token becomes a NUL and
nothing else changes, so every returned token stays intact.  Whatever an earlier run has left in
`saved_token`, and whatever this one leaves there, another string gives the same tokens. -/
theorem strtok_tokens (t : Strtok) (h : Tokens t.mem s d text delims) :
    ∃ rs : List (ℕ × ℕ), (rs.Pairwise fun r r' => r.2 < r'.1) ∧
      (∀ i j, (i, j) ∈ rs ↔ Run (isWord delims) text i j) ∧
      ∀ n, ∃ t',
        t.calls s d n = some ((rs.map fun r => s + BitVec.ofNat 32 r.1).take n ++
          List.replicate (n - rs.length) 0, t') ∧
        (∀ x, t'.mem x = if ∃ r ∈ rs.take n, r.2 < text.length ∧ x = s + BitVec.ofNat 32 r.2 then 0
          else t.mem x) ∧
        (∀ r ∈ rs.take n,
          t'.mem.cstr? (s + BitVec.ofNat 32 r.1) = some (text.extract r.1 r.2)) ∧
        ∀ s₂ d₂ text₂ delims₂, Tokens t.mem s₂ d₂ text₂ delims₂ →
          (∀ x, Within s₂ (text₂.length + 1) x ∨ Within d₂ (delims₂.length + 1) x →
            ¬ Within s (text.length + 1) x) →
          ∀ k, (t'.calls s₂ d₂ k).map Prod.fst = (t.calls s₂ d₂ k).map Prod.fst := by
  have hboundary : Boundary (isWord delims) text 0 := fun m hm => nomatch hm
  have hmem : ∀ i j, (i, j) ∈ runs (isWord delims) text 0 ↔ Run (isWord delims) text i j :=
    fun i j => (Run.mem_runs_iff hboundary).trans (and_iff_right (Nat.zero_le i))
  refine ⟨runs (isWord delims) text 0, Run.pairwise_runs hboundary, hmem, fun n => ?_⟩
  obtain ⟨q, hq⟩ := calls_runs (h.at_zero rfl) h.apart n
  refine ⟨_, hq, fun x => rfl, fun r hr => ?_, fun s₂ d₂ text₂ delims₂ h₂ hout k => ?_⟩
  · exact h.cstr?_cut (fun r hr => (hmem _ _).mp (List.mem_of_mem_take hr)) hr
  · have h₂' : Tokens (cut t.mem s text.length ((runs (isWord delims) text 0).take n))
        s₂ d₂ text₂ delims₂ :=
      { h₂ with
        holds_text := cstr?_congr h₂.holds_text fun x hx =>
          cut_of_not_within (hout x (Or.inl hx))
        holds_delims := cstr?_congr h₂.holds_delims fun x hx =>
          cut_of_not_within (hout x (Or.inr hx)) }
    have hat : At ⟨cut t.mem s text.length ((runs (isWord delims) text 0).take n), q⟩
        s₂ s₂ d₂ text₂ delims₂ 0 := h₂'.at_zero rfl
    obtain ⟨_, hafter⟩ := calls_runs hat h₂'.apart k
    obtain ⟨_, hbefore⟩ := calls_runs (h₂.at_zero rfl) h₂.apart k
    rw [hafter, hbefore]
    rfl

/-- `",ab,c"`, and the delimiter `","`. -/
def commas : Mem :=
  (Mem.store (fun _ => 0) 100 (str ",ab,c")).store 200 (str ",")

theorem strtok_tokens_commas : ∃ rs : List (ℕ × ℕ), (1, 3) ∈ rs ∧ (4, 5) ∈ rs ∧
    ∀ n, ∃ t', (⟨commas, 7⟩ : Strtok).calls 100 200 n =
      some ((rs.map fun r => 100 + BitVec.ofNat 32 r.1).take n ++
        List.replicate (n - rs.length) 0, t') := by
  have htokens : Tokens commas 100 200 (str ",ab,c") (str ",") :=
    { ne_null := by decide
      fits := by decide
      holds_text := cstr?_eq_some.mpr ⟨by decide, by decide, by decide⟩
      holds_delims := cstr?_eq_some.mpr ⟨by decide, by decide, by decide⟩
      apart := fun x hd hs => by
        rw [Within] at hd hs
        have hlen : (str ",ab,c").length = 5 := by decide
        have hdelims : (str ",").length = 1 := by decide
        rw [hlen] at hs
        rw [hdelims] at hd
        bv_omega }
  obtain ⟨rs, -, hmem, hcalls⟩ := strtok_tokens ⟨commas, 7⟩ htokens
  refine ⟨rs, (hmem 1 3).mpr (by decide), (hmem 4 5).mpr (by decide), fun n => ?_⟩
  obtain ⟨t', ht', -⟩ := hcalls n
  exact ⟨t', ht'⟩

end Strtok

end HuskyKernel
