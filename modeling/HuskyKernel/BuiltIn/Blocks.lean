import HuskyKernel.BuiltIn.Syntax
import HuskyKernel.System.Strings

/-!
# BuiltIn/Blocks — strings in new blocks of the heap

The evaluator asks for memory in three places: for the text of a literal, for the copy of a
variable's string, and for a concatenation.  If the heap has room for it, each of them stores one
string in the next block and does nothing else (`copyLiteral_eq`, `strdup_eq`, `concat_eq`).
`Fills h s t`: from `s` to `t` only the free part of the heap has been written to, so that strings
elsewhere are still there.
-/

namespace HuskyKernel

open Wp Scan Msh

/-- From `s` to `t` nothing but the free part of the heap has been written to. -/
structure Fills (h : Host) (s t : Machine) : Prop where
  le : s.heapIndex.toNat ≤ t.heapIndex.toNat
  mem : ∀ x, ¬ Free h.heap s.heapIndex.toNat x → t.mem x = s.mem x

/-- The address of the next block. -/
def Machine.next (h : Host) (s : Machine) : Word := h.heap.base + s.heapIndex

/-- From `s` to `t` a string has been stored in the next block. -/
structure StoresText (h : Host) (text : List Byte) (s t : Machine) : Prop where
  mem : t.mem = s.mem.store (s.next h) (text ++ [0])
  heapIndex : t.heapIndex = s.heapIndex + BitVec.ofNat 32 (text.length + 1)

/-- The machine with a string in the next block, and more in the log. -/
def Machine.keeping (h : Host) (text : List Byte) (log : List Event) (s : Machine) : Machine :=
  { s with
    heapIndex := s.heapIndex + BitVec.ofNat 32 (text.length + 1)
    mem := s.mem.store (s.next h) (text ++ [0])
    log := log ++ s.log }

variable {h : Host} {s t u : Machine} {v left right : MshVar} {text ltext rtext : List Byte}

/-- Nothing has been written at all. -/
theorem Fills.of_eq (hmem : t.mem = s.mem) (hindex : t.heapIndex = s.heapIndex) : Fills h s t :=
  ⟨(congrArg BitVec.toNat hindex).ge, fun x _ => congrFun hmem x⟩

theorem Fills.refl (h : Host) (s : Machine) : Fills h s s := .of_eq rfl rfl

theorem Fills.trans (hst : Fills h s t) (htu : Fills h t u) : Fills h s u := by
  refine ⟨hst.le.trans htu.le, fun x hx => (htu.mem x fun hfree => hx ?_).trans (hst.mem x hx)⟩
  have hle := hst.le
  exact ⟨by have := hfree.1; omega, hfree.2⟩

/-- What was there before is there still. -/
theorem Fills.str {p : Word} (hst : Fills h s t)
    (hs : Str h.heap s.mem s.heapIndex.toNat p text) :
    Str h.heap t.mem t.heapIndex.toNat p text := hs.grow hst.le hst.mem

theorem ofNat_succ (n : ℕ) : BitVec.ofNat 32 n + 1 = BitVec.ofNat 32 (n + 1) :=
  (BitVec.ofNat_add n 1).symm

/-! ## Room -/

/-- The heap has room for `n` bytes more. -/
def Machine.Room (n : ℕ) (s : Machine) : Prop := s.heapIndex.toNat + n ≤ heapSize.toNat

instance {n : ℕ} {s : Machine} : Decidable (s.Room n) := inferInstanceAs (Decidable (_ ≤ _))

theorem Machine.next_eq (h : Host) (s : Machine) :
    s.next h = h.heap.base + BitVec.ofNat 32 s.heapIndex.toNat := by
  rw [BitVec.ofNat_toNat, BitVec.setWidth_eq, next]

section Room

variable {n : ℕ}

/-- No wrap. -/
theorem Machine.Room.toNat (hroom : s.Room n) : (BitVec.ofNat 32 n).toNat = n := by
  have hsize : heapSize.toNat < 2 ^ 32 := heapSize.isLt
  rw [BitVec.toNat_ofNat]
  exact Nat.mod_eq_of_lt (by unfold Machine.Room at hroom; omega)

theorem Machine.Room.malloc (hroom : s.Room n) :
    HuskyKernel.malloc h.heap (BitVec.ofNat 32 n) s.heapIndex
      = (s.next h, s.heapIndex + BitVec.ofNat 32 n) :=
  malloc_eq (by rw [hroom.toNat]; exact hroom)

theorem Machine.Room.next_ne_zero (hroom : s.Room n) : s.next h ≠ 0 :=
  Heap.base_add_ne_zero (BitVec.le_def.mpr ((Nat.le_add_right _ _).trans hroom))

namespace StoresText

variable (hst : StoresText h text s t) (hroom : s.Room (text.length + 1))
include hst hroom

theorem toNat_heapIndex : t.heapIndex.toNat = s.heapIndex.toNat + (text.length + 1) := by
  have hsize : heapSize.toNat < 2 ^ 32 := heapSize.isLt
  rw [hst.heapIndex, BitVec.toNat_add, hroom.toNat]
  exact Nat.mod_eq_of_lt (by unfold Machine.Room at hroom; omega)

/-- A new string is stored in the free part of the heap. -/
theorem fills : Fills h s t := by
  refine ⟨by rw [hst.toNat_heapIndex hroom]; exact Nat.le_add_right _ _, fun x hx => ?_⟩
  rw [hst.mem, s.next_eq h]
  refine store_of_not_free ?_ hx
  rw [List.length_append, List.length_singleton]
  exact hroom

/-- …and is there. -/
theorem str (h0 : 0 ∉ text) : Str h.heap t.mem t.heapIndex.toNat (s.next h) text := by
  rw [hst.toNat_heapIndex hroom, hst.mem, s.next_eq h]
  exact Str.store s.mem h0 hroom

end StoresText

end Room

/-! ## The string functions -/

section Functions

theorem cstrAt_eq {p : Word} (hs : s.mem.cstr? p = some text) : cstrAt p s = .ok text s := by
  rw [cstrAt, hs]

variable {Q : Unit → Machine → Prop} {E : Stop → Machine → Prop}

theorem wp_strlen {Q : Word → Machine → Prop} (hv : s.mem.cstr? v.val = some text) :
    wp (strlen v) Q E s ↔
      Q (BitVec.ofNat 32 text.length) { s with log := .strArg v.type v.val :: s.log } := by
  rw [strlen, wp_bind, wp_emit, wp_bind]
  exact wp_of_ok (cstrAt_eq hv)

theorem wp_copyLoop {f : Mem → Option Mem} {m : Mem} (hf : f s.mem = some m) :
    wp (copyLoop f) Q E s ↔ Q () { s with mem := m } := by
  rw [wp, copyLoop, hf]

theorem wp_strcpy {dest : Word} {m : Mem} (hm : s.mem.strcpy dest v.val = some m) :
    wp (strcpy dest v) Q E s ↔
      Q () { s with mem := m, log := .strArg v.type v.val :: .dest dest :: s.log } := by
  rw [strcpy, wp_bind, wp_emit, wp_bind, wp_emit]
  exact wp_copyLoop hm

theorem wp_strcat {dest : Word} {m : Mem} (hm : s.mem.strcat dest v.val = some m) :
    wp (strcat dest v) Q E s ↔
      Q () { s with mem := m, log := .strArg v.type v.val :: .dest dest :: s.log } := by
  rw [strcat, wp_bind, wp_emit, wp_bind, wp_emit]
  exact wp_copyLoop hm

end Functions

/-! ## The three places -/

/-- **The text of a literal is copied to a new block.** -/
theorem copyLiteral_eq {start : ℕ} {r : List Byte} (hstart : s.code.drop start = text ++ r)
    (hpc : s.pc = start + text.length) (h0 : 0 ∉ text) (hroom : s.Room (text.length + 1)) :
    copyLiteral h start s = .ok (s.next h) (s.keeping h text [.dest (s.next h)]) := by
  have hlen : BitVec.ofNat 32 (s.pc - start) = BitVec.ofNat 32 text.length := by
    rw [hpc, Nat.add_sub_cancel_left]
  have hnat : (BitVec.ofNat 32 text.length).toNat = text.length := by
    have hless : s.Room text.length := (Nat.le_succ _).trans hroom
    exact hless.toNat
  have hbytes : HuskyKernel.strncpy (s.code.drop start) text.length = text := by
    rw [hstart, strncpy_append h0]
  refine eq_ok_iff.mpr ?_
  rw [copyLiteral, wp_bind, wp_get, wp_bind, wp_malloc, hlen, ofNat_succ, hroom.malloc, wp_bind,
    wp_emit, wp_bind, wp_store, wp_bind, wp_store, hnat, hbytes]
  refine ⟨rfl, ?_⟩
  rw [Machine.keeping, Mem.store_append]
  rfl

/-- A literal comes to a string in a new block, and the cursor behind it. -/
theorem wp_stringLiteral_text {zs : List Byte} {E : Stop → Machine → Prop}
    (hrest : s.rest = chr '"' :: (text ++ chr '"' :: zs)) (hin : ∀ c ∈ text, inString c = true)
    (hroom : s.Room (text.length + 1)) :
    wp (stringLiteral h) (fun o t => o = .left { MshVar.zero with type := .str, val := s.next h } ∧
      (∃ pc reach, t = { s.keeping h text [.dest (s.next h)] with pc := pc, reach := reach }) ∧
      t.rest = zs) E s := by
  have hopen := rest_advance hrest
  have hclose : s.code.drop (scan inString s.code (s.pc + 1)) = chr '"' :: zs :=
    rest_scan hopen hin rfl
  have hcur : s.code.getD (scan inString s.code (s.pc + 1)) 0 = chr '"' := by
    rw [← headD_drop, hclose, List.headD_cons]
  have hpc : scan inString s.code (s.pc + 1) = s.pc + 1 + text.length :=
    scan_append (d := 0) hopen hin rfl
  have h0 : 0 ∉ text := fun hmem => absurd (hin 0 hmem) (by decide)
  rw [stringLiteral, wp_bind, wp_advance, wp_bind, wp_get, wp_bind, wp_scanCode, wp_bind, wp_peek,
    wp_ite]
  refine ⟨fun hne => absurd hcur hne, fun _ => wp_bind.mpr ?_⟩
  rw [wp_of_ok (copyLiteral_eq (r := chr '"' :: zs) ?_ ?_ h0 ?_)]
  · exact ⟨rfl, ⟨_, _, rfl⟩, rest_advance hclose⟩
  · exact hopen
  · exact hpc
  · exact hroom

/-- **The string of a variable is copied to a new block.** -/
theorem strdup_eq (hv : Str h.heap s.mem s.heapIndex.toNat v.val text) (hne : v.val ≠ 0)
    (hroom : s.Room (text.length + 1)) :
    strdup h v s = .ok (s.next h) (s.keeping h text [.strArg v.type v.val]) := by
  have hcopy : s.mem.memcpy (s.next h) v.val (text.length + 1)
      = s.mem.store (s.next h) (text ++ [0]) := by
    rw [Mem.memcpy_eq_store, hv.load]
    rw [s.next_eq h]
    exact hv.apart (Nat.le_refl _) hroom
  have hcstr : cstrAt v.val { s with log := .strArg v.type v.val :: s.log } = _ :=
    cstrAt_eq hv.text
  refine eq_ok_iff.mpr ?_
  rw [strdup, wp_bind, wp_emit, if_neg hne, wp_bind, wp_of_ok hcstr, wp_bind, wp_malloc,
    ofNat_succ, hroom.malloc, hroom.toNat, if_pos hroom.next_ne_zero, wp_bind, wp_modify, hcopy]
  exact ⟨rfl, rfl⟩

/-- **The strings of both operands are copied to a new block.** -/
theorem concat_eq (hl : Str h.heap s.mem s.heapIndex.toNat left.val ltext)
    (hr : Str h.heap s.mem s.heapIndex.toNat right.val rtext)
    (hroom : s.Room ((ltext ++ rtext).length + 1)) :
    concat h left right s = .ok (s.next h) (s.keeping h (ltext ++ rtext)
      [.strArg right.type right.val, .dest (s.next h), .strArg left.type left.val,
        .dest (s.next h), .strArg right.type right.val, .strArg left.type left.val]) := by
  have hlen : (ltext ++ rtext).length = ltext.length + rtext.length := List.length_append
  have hblock : s.heapIndex.toNat + ((ltext ++ rtext).length + 1) ≤ heapSize.toNat := hroom
  have hsize : BitVec.ofNat 32 ltext.length + BitVec.ofNat 32 rtext.length + 1
      = BitVec.ofNat 32 ((ltext ++ rtext).length + 1) := by
    rw [← BitVec.ofNat_add, ofNat_succ, hlen]
  -- both strings stay where they are while the block is written
  have hleft : s.mem.strcpy (s.next h) left.val = some (s.mem.store (s.next h) (ltext ++ [0])) := by
    rw [s.next_eq h]
    exact Mem.strcpy_eq_store hl.text (hl.apart (Nat.le_refl _) (by omega))
  have hright : (s.mem.store (s.next h) (ltext ++ [0])).strcat (s.next h) right.val
      = some (s.mem.store (s.next h) (ltext ++ rtext ++ [0])) := by
    rw [s.next_eq h]
    have hfree : s.heapIndex.toNat + (ltext ++ [0]).length ≤ heapSize.toNat := by
      rw [List.length_append, List.length_singleton]
      omega
    have hkept := hr.grow (Nat.le_refl _) fun x hx => store_of_not_free hfree hx
    refine Mem.strcat_eq_store hl.zero_notMem hl.length_lt hkept.text ?_
    rw [BitVec.add_assoc, ← BitVec.ofNat_add]
    exact hr.apart (Nat.le_add_right _ _) (by omega)
  refine eq_ok_iff.mpr (wp_bind.mpr (Iff.mpr (wp_strlen hl.text) ?_))
  refine wp_bind.mpr (Iff.mpr (wp_strlen hr.text) ?_)
  rw [wp_bind, wp_malloc, hsize, hroom.malloc]
  refine wp_bind.mpr (Iff.mpr (wp_strcpy hleft) ?_)
  refine wp_bind.mpr (Iff.mpr (wp_strcat hright) ?_)
  exact ⟨rfl, rfl⟩

end HuskyKernel
