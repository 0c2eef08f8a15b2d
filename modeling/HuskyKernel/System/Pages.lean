import HuskyKernel.Logic.Service
import HuskyKernel.System.Memory

/-!
# System/Pages — the page allocator

`page_bitmap` has one byte for each page of `physical_memory`.  `alloc_page` hands out the first
page whose byte is 0; `free_page` finds the byte by subtracting the array's address, and a pointer
below the array wraps round to an offset behind it.  `pages_exact`: after any run the bitmap marks
exactly the pages the client holds.
-/

namespace HuskyKernel

/-- `PAGE_SIZE`. -/
def pageSize : Word := 0x1000#32

/-- `PHYS_MEM_SIZE`. -/
def physMemSize : Word := 0x1000000#32

/-- `MAX_PAGES`. -/
def maxPages : ℕ := 4096

/-- Where the linker put `physical_memory[PHYS_MEM_SIZE]`: above address 0, all of it
addressable. -/
structure PhysicalMemory where
  base : Word
  base_pos : 0 < base.toNat
  fits : base.toNat + physMemSize.toNat ≤ 2 ^ 32

namespace PhysicalMemory

variable (phys : PhysicalMemory)

/-- `&physical_memory[i * PAGE_SIZE]`. -/
def page (i : ℕ) : Word := phys.base + BitVec.ofNat 32 i * pageSize

/-- The loop of `alloc_page`: the first index whose byte is 0. -/
def firstFree (pageBitmap : ℕ → Byte) : Option ℕ :=
  (List.range maxPages).find? fun i => pageBitmap i = 0

/-- `alloc_page` on `page_bitmap`: the pointer it returns, `0` for NULL, and the bitmap it
leaves. -/
def allocPage (pageBitmap : ℕ → Byte) : Word × (ℕ → Byte) :=
  match firstFree pageBitmap with
  | some i => (phys.page i, Function.update pageBitmap i 1)
  | none => (0, pageBitmap)

/-- `free_page`. -/
def freePage (ptr : Word) (pageBitmap : ℕ → Byte) : ℕ → Byte :=
  let offset := ptr - phys.base
  if offset % pageSize ≠ 0 then pageBitmap
  else
    let index := (offset / pageSize).toNat
    if index < maxPages then Function.update pageBitmap index 0 else pageBitmap

end PhysicalMemory

namespace Pages

/-- The two operations of the allocator. -/
inductive Op where
  | allocPage
  | freePage (ptr : Word)
deriving DecidableEq, Repr

/-- The allocator from boot: every page is free.  Freeing answers nothing, recorded as 0. -/
def allocator (phys : PhysicalMemory) : Service Op Word (ℕ → Byte) where
  boot := fun _ => 0
  call := fun pageBitmap op =>
    match op with
    | .allocPage => phys.allocPage pageBitmap
    | .freePage ptr => (0, phys.freePage ptr pageBitmap)

/-- The call handed out the page at `p`. -/
def Hands (p : Word) (c : Op × Word) : Prop := c.1 = .allocPage ∧ c.2 = p ∧ p ≠ 0

/-- The call gave the page at `p` back. -/
def Frees (p : Word) (c : Op × Word) : Prop := c.1 = .freePage p

/-- The client was handed `p` and has not given it back. -/
def Outstanding (h : List (Op × Word)) (p : Word) : Prop := Since (Hands p) (Frees p) h

/-- What the bitmap `s` says about the client's history `h`, and what the next call does. -/
structure Exact (phys : PhysicalMemory) (h : List (Op × Word)) (s : ℕ → Byte) : Prop where
  marks : ∀ p, Outstanding h p ↔ ∃ i < maxPages, p = phys.page i ∧ s i ≠ 0
  fresh : ¬ Outstanding h (phys.allocPage s).1
  least : (phys.allocPage s).1 ≠ 0 → ∃ i < maxPages, (phys.allocPage s).1 = phys.page i ∧
    s i = 0 ∧ ∀ j < i, s j ≠ 0
  null_iff : (phys.allocPage s).1 = 0 ↔ ∀ i < maxPages, Outstanding h (phys.page i)
  free_other : ∀ p, (∀ i < maxPages, p ≠ phys.page i) → phys.freePage p s = s

/-! ## Addresses

Every page has an address of its own, and none of them is NULL.  The wrapped difference to the
array's address is a page boundary below `MAX_PAGES` exactly for the address of a page. -/

section Address

variable {phys : PhysicalMemory} {i j : ℕ} {p : Word}

theorem toNat_page (phys : PhysicalMemory) (hi : i < maxPages) :
    (phys.page i).toNat = phys.base.toNat + i * 4096 := by
  have hfits := phys.fits
  simp only [maxPages] at hi
  simp only [PhysicalMemory.page, physMemSize, pageSize] at *
  bv_omega

theorem page_ne_zero (hi : i < maxPages) : phys.page i ≠ 0 := by
  intro h0
  have hpos := phys.base_pos
  have hpage := toNat_page phys hi
  rw [h0, show (0 : Word).toNat = 0 from rfl] at hpage
  omega

theorem page_inj (hi : i < maxPages) (hj : j < maxPages) (h : phys.page i = phys.page j) :
    i = j := by
  have hi' := toNat_page phys hi
  have hj' := toNat_page phys hj
  rw [h] at hi'
  omega

/-- The offset of a page, as `free_page` computes it. -/
theorem toNat_page_sub (phys : PhysicalMemory) (hi : i < maxPages) :
    (phys.page i - phys.base).toNat = i * 4096 := by
  have hpage := toNat_page phys hi
  simp only [maxPages] at hi
  bv_omega

/-- Freeing a page clears its byte. -/
theorem freePage_page (hi : i < maxPages) (s : ℕ → Byte) :
    phys.freePage (phys.page i) s = Function.update s i 0 := by
  have hoff := toNat_page_sub phys hi
  have hmod : (phys.page i - phys.base) % pageSize = 0 := by
    rw [← BitVec.toNat_inj, BitVec.toNat_umod, hoff]
    exact Nat.mul_mod_left i 4096
  have hdiv : ((phys.page i - phys.base) / pageSize).toNat = i := by
    rw [BitVec.toNat_udiv, hoff]
    exact Nat.mul_div_left i (by decide)
  simp only [PhysicalMemory.freePage, hmod, hdiv, hi, if_true, ne_eq, not_true, if_false]

/-- **Freeing anything else changes nothing**: it is misaligned, or, below the array with the wrap,
behind its last page. -/
theorem freePage_of_ne (h : ∀ i < maxPages, p ≠ phys.page i) (s : ℕ → Byte) :
    phys.freePage p s = s := by
  rw [PhysicalMemory.freePage]
  by_cases hmod : (p - phys.base) % pageSize ≠ 0
  · rw [if_pos hmod]
  rw [if_neg hmod]
  refine if_neg fun hlt => h _ hlt (BitVec.eq_of_toNat_eq ?_)
  rw [toNat_page phys hlt]
  rw [not_not, ← BitVec.toNat_inj, BitVec.toNat_umod] at hmod
  rw [BitVec.toNat_udiv, maxPages] at hlt
  rw [BitVec.toNat_udiv]
  have hfits := phys.fits
  rw [show pageSize.toNat = 4096 from rfl] at *
  rw [show physMemSize.toNat = 0x1000000 from rfl] at hfits
  bv_omega

end Address

/-! ## One call -/

section Call

variable {phys : PhysicalMemory} {s : ℕ → Byte}

/-- What `alloc_page` can do: hand out the first free page and mark it, or find none. -/
theorem allocPage_cases (phys : PhysicalMemory) (s : ℕ → Byte) :
    (∃ i < maxPages, s i = 0 ∧ (∀ j < i, s j ≠ 0) ∧
      phys.allocPage s = (phys.page i, Function.update s i 1)) ∨
    (∀ i < maxPages, s i ≠ 0) ∧ phys.allocPage s = (0, s) := by
  cases hfind : PhysicalMemory.firstFree s with
  | some i =>
    obtain ⟨hi, hmem, hleast⟩ := List.find?_range_eq_some.mp hfind
    refine Or.inl ⟨i, List.mem_range.mp hmem, of_decide_eq_true hi, fun j hj => ?_, ?_⟩
    · simpa using hleast j hj
    · unfold PhysicalMemory.allocPage
      rw [hfind]
  | none =>
    refine Or.inr ⟨fun i hi => ?_, ?_⟩
    · simpa using List.find?_range_eq_none.mp hfind i hi
    · unfold PhysicalMemory.allocPage
      rw [hfind]

end Call

/-! ## A run -/

section Run

variable {phys : PhysicalMemory} {h : List (Op × Word)} {s : ℕ → Byte} {p : Word} {i : ℕ}

/-- The bitmap marks the pages the client holds, and the client holds nothing else. -/
def Marks (phys : PhysicalMemory) (h : List (Op × Word)) (s : ℕ → Byte) : Prop :=
  ∀ p, Outstanding h p ↔ ∃ i < maxPages, p = phys.page i ∧ s i ≠ 0

theorem Marks.outstanding_page (hm : Marks phys h s) (hi : i < maxPages) :
    Outstanding h (phys.page i) ↔ s i ≠ 0 := by
  rw [hm]
  constructor
  · rintro ⟨j, hj, heq, hs⟩
    rwa [page_inj hi hj heq]
  · exact fun hs => ⟨i, hi, rfl, hs⟩

/-- Handing out page `i` marks it, and no other page. -/
theorem Marks.hand (hm : Marks phys h s) (hi : i < maxPages) :
    Marks phys (h ++ [(.allocPage, phys.page i)]) (Function.update s i 1) := by
  intro p
  rw [Outstanding, Since.concat, ← Outstanding, hm]
  constructor
  · rintro (⟨-, rfl, -⟩ | ⟨⟨j, hj, rfl, hs⟩, -⟩)
    · exact ⟨i, hi, rfl, by simp⟩
    · refine ⟨j, hj, rfl, ?_⟩
      by_cases hji : j = i <;> simp [hji, hs]
  · rintro ⟨j, hj, rfl, hs⟩
    by_cases hji : j = i
    · exact Or.inl ⟨rfl, by rw [hji], page_ne_zero hj⟩
    · rw [Function.update_of_ne hji] at hs
      exact Or.inr ⟨⟨j, hj, rfl, hs⟩, by simp [Frees]⟩

/-- A call that hands out nothing and frees nothing leaves the client's pages alone. -/
theorem outstanding_null : Outstanding (h ++ [(.allocPage, 0)]) p ↔ Outstanding h p := by
  rw [Outstanding, Since.concat, ← Outstanding]
  constructor
  · rintro (⟨-, rfl, hp⟩ | ⟨hh, -⟩)
    · exact absurd rfl hp
    · exact hh
  · exact fun hh => Or.inr ⟨hh, by simp [Frees]⟩

/-- Freeing ends the time of the pointer it is given, and of no other. -/
theorem outstanding_free {q : Word} :
    Outstanding (h ++ [(.freePage q, 0)]) p ↔ Outstanding h p ∧ p ≠ q := by
  rw [Outstanding, Since.concat, ← Outstanding]
  constructor
  · rintro (⟨hop, -⟩ | ⟨hh, hne⟩)
    · cases hop
    · exact ⟨hh, fun heq => hne (by rw [heq, Frees])⟩
  · rintro ⟨hh, hne⟩
    exact Or.inr ⟨hh, fun heq => hne (Op.freePage.inj heq).symm⟩

theorem Marks.free (hm : Marks phys h s) (q : Word) :
    Marks phys (h ++ [(.freePage q, 0)]) (phys.freePage q s) := by
  intro p
  rw [outstanding_free, hm]
  by_cases hq : ∃ i < maxPages, q = phys.page i
  · obtain ⟨i, hi, rfl⟩ := hq
    rw [freePage_page hi]
    constructor
    · rintro ⟨⟨j, hj, rfl, hs⟩, hne⟩
      have hji : j ≠ i := fun h => hne (h ▸ rfl)
      exact ⟨j, hj, rfl, by rwa [Function.update_of_ne hji]⟩
    · rintro ⟨j, hj, rfl, hs⟩
      have hji : j ≠ i := by
        rintro rfl
        exact hs (Function.update_self ..)
      rw [Function.update_of_ne hji] at hs
      exact ⟨⟨j, hj, rfl, hs⟩, fun h => hji (page_inj hj hi h)⟩
  · rw [freePage_of_ne fun i hi heq => hq ⟨i, hi, heq⟩]
    refine ⟨And.left, fun hp => ⟨hp, ?_⟩⟩
    obtain ⟨i, hi, rfl, -⟩ := hp
    exact fun heq => hq ⟨i, hi, heq.symm⟩

/-- **The bitmap and the client agree on every run.** -/
theorem marks_run (phys : PhysicalMemory) (ops : List Op) :
    Marks phys ((allocator phys).history ops) ((allocator phys).state ops) := by
  refine (allocator phys).invariant (P := Marks phys) (fun p => ?_) (fun h s op hm => ?_) ops
  · simp [Outstanding, allocator]
  cases op with
  | freePage q => exact hm.free q
  | allocPage =>
    rcases allocPage_cases phys s with ⟨i, hi, -, -, hcall⟩ | ⟨-, hcall⟩
    · simpa only [allocator, hcall] using hm.hand hi
    · intro p
      simp only [allocator, hcall]
      rw [outstanding_null, hm]

/-- **The page allocator is sound and complete**, after every run. -/
theorem pages_exact (phys : PhysicalMemory) (ops : List Op) :
    Exact phys ((allocator phys).history ops) ((allocator phys).state ops) := by
  have hm : Marks phys _ _ := marks_run phys ops
  generalize (allocator phys).history ops = h, (allocator phys).state ops = s at hm
  have hfree : ∀ p, (∀ i < maxPages, p ≠ phys.page i) → phys.freePage p s = s :=
    fun p hp => freePage_of_ne hp s
  rcases allocPage_cases phys s with ⟨i, hi, hs, hleast, hcall⟩ | ⟨hfull, hcall⟩
  · have hnot : ¬ Outstanding h (phys.page i) := fun ho => (hm.outstanding_page hi).mp ho hs
    refine ⟨hm, by rwa [hcall], fun _ => ⟨i, hi, by rw [hcall], hs, hleast⟩, ?_, hfree⟩
    rw [hcall]
    exact ⟨fun h0 => absurd h0 (page_ne_zero hi), fun hall => absurd (hall i hi) hnot⟩
  · have hnull : ¬ Outstanding h 0 := by
      rw [hm]
      rintro ⟨i, hi, h0, -⟩
      exact page_ne_zero hi h0.symm
    refine ⟨hm, by rwa [hcall], fun h0 => absurd (by rw [hcall]) h0, ?_, hfree⟩
    rw [hcall]
    exact ⟨fun _ i hi => (hm.outstanding_page hi).mpr (hfull i hi), fun _ => rfl⟩

end Run

end Pages

end HuskyKernel
