import HuskyKernel.BuiltIn.Run

/-!
# BuiltIn/Names — the names in the variable table

`*var = value` copies a whole `msh_var_t`, and `value.name` is not the name assigned to: a literal
has the empty name, a copied variable its own.  From `msh_init` on the only name there ever is is
the empty one (`Nameless`), so the table is well formed exactly as long as nothing has been stored
in it (`tableOk_iff`).
-/

namespace HuskyKernel

open Wp Scan

/-! ## Looking up -/

section Lookup

variable {s : Machine} {name : List Byte} {i : ℕ}

/-- **`find_var` finds the first entry of that name.** -/
theorem Machine.lookup_eq_some : s.lookup name = some i ↔
    cstr (s.vars i).bytes = cstr name ∧ i < s.varCount ∧
      ∀ j < i, cstr (s.vars j).bytes ≠ cstr name := by
  simp [Machine.lookup, List.find?_range_eq_some, strcmp_eq_zero_iff]

theorem Machine.lookup_eq_none :
    s.lookup name = none ↔ ∀ i < s.varCount, cstr (s.vars i).bytes ≠ cstr name := by
  simp [Machine.lookup, strcmp_eq_zero_iff]

/-- Where a value assigned to `name` belongs: the entry of that name, or the next free one. -/
def Machine.slot (s : Machine) (name : List Byte) : ℕ := (s.lookup name).getD s.varCount

theorem Machine.slot_lt_iff : s.slot name < s.varCount ↔ s.lookup name ≠ none := by
  rw [Machine.slot]
  cases hl : s.lookup name with
  | none => simp
  | some i => simpa using (Machine.lookup_eq_some.mp hl).2.1

/-- An entry in the table is the slot of its own name only. -/
theorem Machine.slot_inj {name' : List Byte} (hn : s.lookup name ≠ none)
    (h : s.slot name = s.slot name') : cstr name = cstr name' := by
  have hn' : s.lookup name' ≠ none := by rwa [← slot_lt_iff, ← h, slot_lt_iff]
  obtain ⟨i, hi⟩ := Option.ne_none_iff_exists'.mp hn
  obtain ⟨j, hj⟩ := Option.ne_none_iff_exists'.mp hn'
  rw [Machine.slot, Machine.slot, hi, hj] at h
  obtain rfl : i = j := h
  rw [← (Machine.lookup_eq_some.mp hi).1, (Machine.lookup_eq_some.mp hj).1]

/-- A name that ends inside its 32 bytes is what `strcmp` reads. -/
theorem cstr_bytes {v : MshVar} (hv : 0 ∈ v.name) : cstr v.bytes = cstr v.name :=
  cstr_append hv

end Lookup

namespace Msh

variable (h : Host) {s t u : Machine}

/-! ## The name of a value

A value is named by its leftmost operand: every operator writes its result into a copy of the left
one. -/

theorem yields_applyOp (op : Byte) (result : MshVar) (common : MshType) (l r : MshVar) :
    Yields (fun v => v.name = result.name) (applyOp h op result common l r) := by
  refine .ite ?_ (.ite ?_ (.ite ?_ (.ite ?_ (.ite (.pure rfl) ?_))))
  · cases common
    case str => exact .bind fun _ => .pure rfl
    all_goals exact .pure rfl
  · cases common <;> exact .pure rfl
  · cases common <;> exact .pure rfl
  · exact .bind fun _ => .pure rfl
  · exact .bind fun _ => .pure rfl

theorem yields_evalTail (eval : Msh MshVar) (left : MshVar) :
    Yields (fun v => v.name = left.name) (evalTail h eval left) := by
  refine .bind fun _ => .bind fun _ => .ite ?_ (.pure rfl)
  exact .bind fun _ => .bind fun _ => .bind fun _ => yields_applyOp h _ _ _ _ _

/-- The name a value may have: none, or that of an entry. -/
def Named (s : Machine) (v : MshVar) : Prop :=
  v.name = MshVar.zero.name ∨ ∃ i < s.varCount, v.name = (s.vars i).name

theorem named_variableRef : wp (variableRef h) (fun v _ => Named s v) (fun _ _ => True) s := by
  have hentry {i : ℕ} (hl : s.lookup (parsed s).identBuf = some i) : i < s.varCount :=
    (Machine.lookup_eq_some.mp hl).2.1
  refine wp_variableRef h (fun _ => .inl rfl) (fun i hl _ => ?_)
    fun i hl _ => .inr ⟨i, hentry hl, rfl⟩
  exact wp_intro (fun _ _ _ => .inr ⟨i, hentry hl, rfl⟩) fun _ _ _ => trivial

/-- The value an operand is about. -/
def Operand.value : Operand → MshVar
  | .left v => v
  | .done v => v

theorem yields_stringLiteral :
    Yields (fun o => o.value.name = MshVar.zero.name) (stringLiteral h) := by
  refine .bind fun _ => .bind fun _ => .bind fun _ => .bind fun _ => .ite ?_ ?_
  · exact .bind fun _ => .pure rfl
  · exact .bind fun _ => .bind fun _ => .pure rfl

theorem named_evalOperand (eval : Msh MshVar) :
    wp (evalOperand h eval) (fun o _ => Named s o.value) (fun _ _ => True) s :=
  wp_evalOperand (fun _ => .inl rfl)
    (fun _ => wp_mono (yields_stringLiteral h _) (fun _ _ => .inl) fun _ _ => id)
    (fun _ => named_variableRef h) fun _ _ => .inl rfl

/-- **A value has no name, or that of an entry.** -/
theorem named_evalExpr : wp (evalExpr h) (fun v _ => Named s v) (fun _ _ => True) s := by
  change wp (evalExprN h (s.code.length + 1)) _ _ s
  rw [evalExprN, wp_bind]
  refine wp_mono (named_evalOperand h _) (fun o t ho => ?_) fun _ _ => id
  cases o with
  | done v => exact ho
  | left v =>
    refine wp_mono (yields_evalTail h _ v t) (fun v' _ hv => ?_) fun _ _ => id
    rcases ho with ho | ⟨i, hi, hn⟩
    · exact .inl (hv.trans ho)
    · exact .inr ⟨i, hi, hv.trans hn⟩

variable {h}

/-! ## No names -/

/-- Every entry has the empty name. -/
structure Nameless (s : Machine) : Prop where
  count : s.varCount ≤ 64
  name : ∀ i < s.varCount, (s.vars i).name = MshVar.zero.name

theorem Nameless.of_frame (hs : Nameless s) (hf : Frame s t) : Nameless t := by
  refine ⟨hf.varCount ▸ hs.count, fun i hi => ?_⟩
  rw [hf.vars]
  exact hs.name i (hf.varCount ▸ hi)

theorem Nameless.assigned (hs : Nameless s) {v : MshVar} (hv : v.name = MshVar.zero.name) :
    Nameless (assigned s v) := by
  have hset (w : Machine) (i : ℕ) (hw : w.varCount ≤ 64)
      (hn : ∀ j < w.varCount, j ≠ i → (w.vars j).name = MshVar.zero.name) :
      Nameless (w.setVar i v) := by
    refine ⟨hw, fun j hj => ?_⟩
    by_cases hji : j = i
    · rw [hji, Machine.setVar_self, hv]
    · rw [Machine.setVar_of_ne w v hji]
      exact hn j hj hji
  obtain ⟨i, _, h⟩ | ⟨_, hc, h⟩ | ⟨_, _, h⟩ := assigned_cases s v <;> rw [h]
  · exact hset s i hs.count fun j hj _ => hs.name j hj
  · refine hset _ s.varCount hc fun j hj hji => hs.name j ?_
    have : j < s.varCount + 1 := hj
    omega
  · exact ⟨hs.count, hs.name⟩

/-- **A statement leaves the table nameless.** -/
theorem Nameless.effect (hs : Nameless s) (heff : Effect h s t) : Nameless t := by
  cases heff with
  | skip => exact ⟨hs.count, hs.name⟩
  | name ha => exact hs.of_frame (frame_named ha)
  | fail ha hc hev => exact hs.of_frame (frame_value ha hc hev)
  | store ha hc hev =>
    have hr := hs.of_frame (frame_rhs ha hc)
    refine (hr.of_frame ((frame_evalExpr h).ok hev)).assigned ?_
    obtain hv | ⟨i, hi, hv⟩ := (wp_of_ok hev).mp (named_evalExpr h)
    · exact hv
    · exact hv.trans (hr.name i hi)

theorem Session.nameless {l : List (Machine × Machine)} (hs : Session h l s) : Nameless s :=
  hs.keeps (fun _ => ⟨Nat.zero_le _, fun _ hi => absurd hi (Nat.not_lt_zero _)⟩)
    (fun _ _ hs => ⟨hs.count, hs.name⟩) (fun _ hs => ⟨hs.count, hs.name⟩)
    fun _ _ hst hs => hs.effect hst.effect

/-! ## The table -/

/-- The table is well formed: its names are strings, not empty, and no two are the same. -/
structure TableOk (s : Machine) : Prop where
  count : s.varCount ≤ 64
  nonempty : ∀ i < s.varCount, cstr (s.vars i).name ≠ []
  terminated : ∀ i < s.varCount, (s.vars i).name.length = 32 ∧ 0 ∈ (s.vars i).name
  distinct : ∀ i < s.varCount, ∀ j < s.varCount,
    cstr (s.vars i).name = cstr (s.vars j).name → i = j

/-- An assignment to a name in the table takes no new entry, and one that fails for lack of room
finds 64 entries taken. -/
structure SlotLaw (s : Machine) : Prop where
  reassign : ∀ name v, (∃ i < s.varCount, cstr (s.vars i).name = cstr name) →
    (assigned { s with identBuf := name } v).varCount = s.varCount
  room : ∀ name v, (assigned { s with identBuf := name, hadError := false } v).hadError = true →
    s.varCount = 64

/-- The statement from `s` to `t` is an assignment, and has stored its value. -/
structure Stores (s t : Machine) : Prop where
  letter : isalpha (skipped s).cur = true
  equals : (named s).cur = chr '='
  err : t.hadError = false

/-- **The slots are allotted as a well-formed table has it**: this much of the law the code keeps.
-/
theorem TableOk.slotLaw (hs : TableOk s) : SlotLaw s := by
  refine ⟨fun name v ⟨i, hi, hn⟩ => ?_, fun name v he => ?_⟩
  · have hfound : Machine.lookup { s with identBuf := name } name ≠ none := fun hnone =>
      Machine.lookup_eq_none.mp hnone i hi ((cstr_bytes (hs.terminated i hi).2).trans hn)
    obtain ⟨_, _, h⟩ | ⟨hl, _⟩ | ⟨hl, _⟩ := assigned_cases { s with identBuf := name } v
    · rw [h]
      rfl
    · exact absurd hl hfound
    · exact absurd hl hfound
  · obtain ⟨_, _, h⟩ | ⟨_, _, h⟩ | ⟨_, hc, _⟩ :=
      assigned_cases { s with identBuf := name, hadError := false } v
    · rw [h] at he
      cases he
    · rw [h] at he
      cases he
    · exact le_antisymm hs.count hc

theorem Effect.varCount_le (heff : Effect h s t) : s.varCount ≤ t.varCount := by
  cases heff with
  | skip => exact le_rfl
  | name ha => exact (frame_named ha).varCount.ge
  | fail ha hc hev => exact (frame_value ha hc hev).varCount.ge
  | @store v u ha hc hev he =>
    refine (frame_value ha hc hev).varCount.ge.trans ?_
    obtain ⟨_, _, h⟩ | ⟨_, _, h⟩ | ⟨_, _, h⟩ := assigned_cases u v
    · exact (congrArg Machine.varCount h).ge
    · exact (Nat.le_succ _).trans_eq (congrArg Machine.varCount h).symm
    · exact (congrArg Machine.varCount h).ge

/-- A statement that stores leaves an entry. -/
theorem Effect.varCount_pos (heff : Effect h s t) (hst : Stores s t) : 0 < t.varCount := by
  cases heff with
  | skip ha => exact absurd (hst.letter.symm.trans ha) Bool.noConfusion
  | name ha hc => exact absurd hst.equals hc
  | fail ha hc hev he => exact absurd (he.symm.trans hst.err) Bool.noConfusion
  | @store v u ha hc hev he =>
    have herr := hst.err
    obtain ⟨i, hl, h⟩ | ⟨_, _, h⟩ | ⟨_, _, h⟩ := assigned_cases u v <;> rw [h] at herr ⊢
    · exact Nat.zero_lt_of_lt (Machine.lookup_eq_some.mp hl).2.1
    · exact Nat.succ_pos _
    · cases herr

/-- A statement that does not store takes no entry. -/
theorem Effect.varCount_eq (heff : Effect h s t) (hst : ¬ Stores s t) :
    t.varCount = s.varCount := by
  cases heff with
  | skip => rfl
  | name ha => exact (frame_named ha).varCount
  | fail ha hc hev => exact (frame_value ha hc hev).varCount
  | @store v u ha hc hev he =>
    cases he' : (assigned u v).hadError with
    | false => exact absurd ⟨ha, hc, he'⟩ hst
    | true =>
      exact (assigned_of_error he he').2.trans
        (frame_value ha hc hev).varCount

/-- **The table has entries exactly if a statement has stored.** -/
theorem Session.varCount_eq_zero_iff {l : List (Machine × Machine)} (hs : Session h l s) :
    s.varCount = 0 ↔ ∀ p ∈ l, ¬ Stores p.1 p.2 := by
  induction hs with
  | init s => exact ⟨fun _ _ hp => absurd hp (List.not_mem_nil), fun _ => rfl⟩
  | @call l l' s t hs code hl hf ih =>
    rw [List.forall_mem_append, ← ih]
    refine ⟨fun h0 => ?_, fun ⟨h0, hno⟩ => ?_⟩
    · have hle {a b : Machine} {l : List (Machine × Machine)} (hl : Steps (Step h) a l b) :
          a.varCount ≤ b.varCount :=
        hl.keeps (P := fun b => a.varCount ≤ b.varCount)
          (fun _ _ hst hu => hu.trans hst.effect.varCount_le) le_rfl
      refine ⟨Nat.le_zero.mp ((hle hl).trans_eq h0), fun p hp hst => ?_⟩
      obtain ⟨hstep, _, _, hl₂⟩ := hl.of_mem hp
      exact absurd ((hle hl₂).trans_eq h0) (Nat.not_le.mpr (hstep.effect.varCount_pos hst))
    · refine hl.invariant (P := fun b => b.varCount = 0) h0 fun p hp hst h0 => ?_
      rw [hst.effect.varCount_eq (hno p hp), h0]

/-- **The table is well formed exactly as long as nothing has been stored in it.** -/
theorem tableOk_iff {l : List (Machine × Machine)} (hs : Session h l s) :
    TableOk s ∧ SlotLaw s ↔ ∀ p ∈ l, ¬ Stores p.1 p.2 := by
  rw [← hs.varCount_eq_zero_iff]
  refine ⟨fun ⟨hok, _⟩ => ?_, fun h0 => ?_⟩
  · by_contra hpos
    refine hok.nonempty 0 (Nat.pos_of_ne_zero hpos) ?_
    rw [hs.nameless.name 0 (Nat.pos_of_ne_zero hpos)]
    rfl
  · have hok : TableOk s := by
      refine ⟨h0.trans_le (Nat.zero_le _), fun i hi => ?_, fun i hi => ?_, fun i hi => ?_⟩ <;>
        exact absurd hi (h0 ▸ Nat.not_lt_zero i)
    exact ⟨hok, hok.slotLaw⟩

/-- Two calls, `x = y` and `print`: the first fails, the second does nothing, and the table is well
formed. -/
theorem tableOk_unknown_name : ∃ t u,
    Session Host.bare [(enter (str "x = y") (mshInit Machine.boot), t),
      (enter (str "print") t.seen, u)] u.seen ∧ TableOk u.seen ∧ SlotLaw u.seen := by
  have hrun : check (plainStmt Host.bare) (fun _ t => t.hadError)
      (enter (str "x = y") (mshInit Machine.boot)).seen = true := by decide +kernel
  obtain ⟨_, t, hr, he⟩ := of_check hrun
  have hfail : Step Host.bare (enter (str "x = y") (mshInit Machine.boot)) t :=
    .of_plain (by decide) rfl hr
  have hletter : isalpha (skipped (enter (str "print") t.seen)).cur = true := rfl
  have hend : (named (enter (str "print") t.seen)).cur = 0 := rfl
  have hname : Step Host.bare (enter (str "print") t.seen) (named (enter (str "print") t.seen)) :=
    (Effect.name hletter (by rw [hend]; decide)).step (show chr 'p' ≠ 0 by decide) rfl
  have hs : Session Host.bare _ _ :=
    ((Session.init Machine.boot).call (str "x = y") (.cons hfail (.nil t)) (.inr he)).call
      (str "print") (.cons hname (.nil _)) (.inl hend)
  refine ⟨t, _, hs, (tableOk_iff hs).mpr fun p hp hst => ?_⟩
  rcases List.mem_cons.mp hp with rfl | hp
  · exact Bool.noConfusion (he.symm.trans hst.err)
  · obtain rfl := List.mem_singleton.mp hp
    exact absurd (hend.symm.trans hst.equals) (by decide)

/-- `x = 1` leaves an entry without a name. -/
theorem not_tableOk_of_literal :
    ¬ ∀ l s, Session Host.bare l s → TableOk s ∧ SlotLaw s := by
  intro hall
  have hrun : check (mshExecute Host.bare 2 (str "x = 1"))
      (fun _ t => t.varCount = 1 && cstr (t.vars 0).name = []) (mshInit Machine.boot) = true := by
    decide +kernel
  obtain ⟨_, t, hr, ht⟩ := of_check hrun
  obtain ⟨hcount, hname⟩ := Bool.and_eq_true_iff.mp ht
  obtain ⟨l, hs⟩ := (Session.init Machine.boot).execute hr
  have hpos : 0 < t.varCount := by rw [of_decide_eq_true hcount]; exact Nat.one_pos
  exact (hall _ t hs).1.nonempty 0 hpos (of_decide_eq_true hname)

end Msh

end HuskyKernel
