import HuskyKernel.BuiltIn.Chains
import HuskyKernel.BuiltIn.Moves

/-!
# BuiltIn/Stops — where an evaluation stops for good

A move of an evaluation does not return if it reads a string without an end, copies one into itself,
or divides -2³¹ by -1, on which the processor traps (`Move.Ends`, `Move.Overflows`: both are read
off the machine before the move).  An evaluation returns if all its moves do
(`evalExpr_bounded_iff`), and each of its divisions is made or reported as it should be if none of
them is that one (`divides_iff`).
-/

namespace HuskyKernel

open Wp Scan Msh

/-! ## Conditions on a move -/

/-- What a value counts for beside an `int`. -/
def asInt (m : Mem) (v : MshVar) : Option Word :=
  if v.type = .str then (m.cstr? v.val).map atoi else some v.val

/-- The variable the cursor is in front of. -/
def Machine.entry? (s : Machine) : Option MshVar :=
  if isalpha (skipped s).cur then (s.lookup (parsed (skipped s)).identBuf).map s.vars else none

/-- `left + right` of strings ends: both have an end, and neither is copied into itself. -/
def ConcatEnds (h : Host) (left right : MshVar) (s : Machine) : Prop :=
  ∃ l ∈ s.mem.cstr? left.val, ∃ r ∈ s.mem.cstr? right.val,
    let size := BitVec.ofNat 32 l.length + BitVec.ofNat 32 r.length + 1
    let p := (HuskyKernel.malloc h.heap size s.heapIndex).1
    Mem.Clear p left.val l.length ∧
      ∃ r' ∈ (s.mem.store p (l ++ [0])).cstr? right.val,
        Mem.Clear (p + BitVec.ofNat 32 l.length) right.val r'.length

instance {h : Host} {left right : MshVar} {s : Machine} : Decidable (ConcatEnds h left right s) :=
  inferInstanceAs (Decidable (∃ _ ∈ _, ∃ _ ∈ _, _ ∧ ∃ _ ∈ _, _))

namespace Move

/-- -2³¹ is divided by -1. -/
def Overflows : Move → Prop
  | operand _ => False
  | operation o left right s => o.byte = chr '/' ∧ commonType left.type right.type = .int ∧
      asInt s.mem left = some (BitVec.intMin 32) ∧ asInt s.mem right = some (-1)

/-- The move returns. -/
def Ends (h : Host) : Move → Prop
  | operand s => ∀ v ∈ s.entry?, v.val ≠ 0 → Readable s.mem v
  | operation o left right s =>
    (commonType left.type right.type = .int ∨ commonType left.type right.type = .float →
      Readable s.mem left ∧ Readable s.mem right) ∧
    (commonType left.type right.type = .str → o.byte = chr '+' → ConcatEnds h left right s) ∧
    ¬ (operation o left right s).Overflows

instance : DecidablePred Overflows
  | operand _ => inferInstanceAs (Decidable False)
  | operation .. => inferInstanceAs (Decidable (_ ∧ _))

instance {h : Host} : DecidablePred (Ends h)
  | operand _ => inferInstanceAs (Decidable (∀ v ∈ Machine.entry? _, _))
  | operation .. => inferInstanceAs (Decidable ((_ → _) ∧ (_ → _) ∧ ¬ Overflows _))

/-- A division of `int`s has its quotient if there is one and an `int` can hold it; any other is
reported. -/
def Divides (h : Host) : Move → Prop
  | operand _ => True
  | operation o left right s =>
    o.byte = chr '/' → commonType left.type right.type = .int →
      ∀ x ∈ asInt s.mem left, ∀ y ∈ asInt s.mem right,
        wp (operate h o left right) (fun v t =>
          if y.toInt ≠ 0 ∧ InRange (x.toInt.tdiv y.toInt) then
            v.val.toInt = x.toInt.tdiv y.toInt ∧ t.hadError = s.hadError
          else t.hadError = true) (fun _ _ => False) s

end Move

/-! ## Operands -/

section Operands

variable {h : Host} {s t : Machine} {v : MshVar}

/-- `strdup` reads the string, unless it is NULL. -/
theorem wp_strdup_ends : wp (strdup h v) (fun _ _ => v.val ≠ 0 → (s.mem.cstr? v.val).isSome)
    (fun e _ => e = .noNul ∧ v.val ≠ 0 ∧ s.mem.cstr? v.val = none) s := by
  rw [strdup, wp_bind, wp_emit, wp_ite]
  refine ⟨fun h0 hne => absurd h0 hne, fun h0 => wp_bind.mpr (wp_cstrAt.mpr ⟨fun bs hbs => ?_, ?_⟩)⟩
  · have hsome : (s.mem.cstr? v.val).isSome := Option.isSome_iff_exists.mpr ⟨bs, hbs⟩
    rw [wp_bind, wp_malloc, wp_ite]
    exact ⟨fun _ _ => hsome, fun _ _ => hsome⟩
  · exact fun hnone => ⟨rfl, h0, hnone⟩

/-- A literal returns, closed or not. -/
theorem wp_stringLiteral_returns :
    wp (stringLiteral h) (fun _ _ => True) (fun _ _ => False) s := by
  simp [stringLiteral, copyLiteral, wp_ite]

theorem wp_variableRef_ends :
    wp (variableRef h)
      (fun _ _ => ∀ v ∈ (s.lookup (parsed s).identBuf).map s.vars, v.val ≠ 0 → Readable s.mem v)
      (fun e _ => e = .noNul ∧
        ¬ ∀ v ∈ (s.lookup (parsed s).identBuf).map s.vars, v.val ≠ 0 → Readable s.mem v) s := by
  refine wp_variableRef h (fun hl => ?_) (fun i hl hstr => ?_) fun i hl hne => ?_
  · rw [hl]
    simp
  all_goals
    simp only [hl, Option.map_some, Option.mem_some_iff, forall_eq']
  · refine wp_mono wp_strdup_ends (fun _ _ hends h0 _ => hends h0) fun e _ hstop => ?_
    refine ⟨hstop.1, fun hends => ?_⟩
    have hsome := hends hstop.2.1 hstr
    rw [show s.mem.cstr? (s.vars i).val = none from hstop.2.2] at hsome
    cases hsome
  · exact fun _ hstr => absurd hstr hne

/-- **An operand is read, unless it is a variable with an endless string.** -/
theorem wp_operand_ends : wp ((Move.operand s).act h) (fun _ _ => (Move.operand s).Ends h)
    (fun e _ => e = .noNul ∧ ¬ (Move.operand s).Ends h) s := by
  rw [Move.Ends, Machine.entry?]
  have hends : ∀ v ∈ (none : Option MshVar), v.val ≠ 0 → Readable s.mem v := by simp
  refine wp_operand (fun hq => ?_) (fun _ ha => ?_) (fun _ ha => ?_) fun _ ha => ?_
  · rw [if_neg (by rw [hq]; decide)]
    exact wp_mono wp_stringLiteral_returns (fun _ _ _ => hends) fun _ _ => False.elim
  · rw [if_pos ha]
    exact wp_variableRef_ends
  all_goals
    rw [if_neg (Bool.eq_false_iff.mp ha)]
    exact hends

end Operands

/-! ## Operations -/

section Operations

variable {h : Host} {s t : Machine} {v w left right x y : MshVar} {c : MshType} {o : Op}

/-- Beside an `int`, a value is converted to one. -/
theorem asInt_eq {m : Mem} (hread : Readable m v) (hf : v.type ≠ .float) :
    asInt m v = some ((v.read m).as h .int) := by
  rw [asInt]
  unfold Val.as
  cases hty : v.type
  case float => exact absurd hty hf
  case str =>
    obtain ⟨bs, hbs⟩ := Option.isSome_iff_exists.mp (hread hty)
    simp [MshVar.read, hty, hbs]
  all_goals simp [MshVar.read, hty]

/-- Both are `int`s. -/
theorem Unifies.ints {m : Mem} (hu : Unifies h m left right c x y) (hc : c = .int) :
    asInt m left = some x.val ∧ asInt m right = some y.val := by
  obtain ⟨hleft, hright⟩ := hu.readable (.inl hc)
  obtain ⟨hx, hy⟩ := hu.number (.inl hc)
  have hfloat : left.type ≠ .float ∧ right.type ≠ .float := by
    have hcommon : commonType left.type right.type = .int := hu.common.symm.trans hc
    constructor
    all_goals
      intro hf
      rw [hf] at hcommon
      revert hcommon
    · cases right.type <;> decide
    · cases left.type <;> decide
  rw [hx, hy, hc]
  exact ⟨asInt_eq hleft hfloat.1, asInt_eq hright hfloat.2⟩

/-- The strings of a concatenation are measured. -/
theorem wp_strlen_ends {Q : Word → Machine → Prop} {E : Stop → Machine → Prop}
    (hok : ∀ bs, s.mem.cstr? v.val = some bs →
      Q (BitVec.ofNat 32 bs.length) { s with log := .strArg v.type v.val :: s.log })
    (hstop : s.mem.cstr? v.val = none →
      E .noNul { s with log := .strArg v.type v.val :: s.log }) : wp (strlen v) Q E s := by
  rw [strlen, wp_bind, wp_emit, wp_bind]
  exact wp_cstrAt.mpr ⟨hok, hstop⟩

/-- A copy loop ends if it has a result. -/
theorem wp_copyLoop_ends {f : Mem → Option Mem} {Q : Unit → Machine → Prop}
    {E : Stop → Machine → Prop} (hok : ∀ m, f s.mem = some m → Q () { s with mem := m })
    (hstop : f s.mem = none → E .noNul s) : wp (copyLoop f) Q E s := by
  rw [wp, copyLoop]
  cases hf : f s.mem with
  | some m => exact hok m hf
  | none => exact hstop hf

/-- Two copy loops end if both have a result. -/
theorem wp_copyLoops_ends {p : Word} : wp (do strcpy p left; strcat p right; return p)
    (fun _ _ => ((s.mem.strcpy p left.val).bind fun m => m.strcat p right.val).isSome)
    (fun e _ => e = .noNul ∧
      ¬ ((s.mem.strcpy p left.val).bind fun m => m.strcat p right.val).isSome) s := by
  rw [wp_bind, strcpy, wp_bind, wp_emit, wp_bind, wp_emit]
  refine wp_copyLoop_ends (fun m hm => ?_) fun hnone => ⟨rfl, ?_⟩
  · rw [show s.mem.strcpy p left.val = some m from hm, Option.bind_some, wp_bind, strcat, wp_bind,
      wp_emit, wp_bind, wp_emit]
    refine wp_copyLoop_ends (fun m' hm' => ?_) fun hnone => ⟨rfl, ?_⟩
    · exact Option.isSome_iff_exists.mpr ⟨m', hm'⟩
    · exact Option.not_isSome_iff_eq_none.mpr hnone
  · rw [show s.mem.strcpy p left.val = none from hnone]
    exact Bool.false_ne_true

/-- **A concatenation ends** exactly under its condition. -/
theorem wp_concat_ends : wp (concat h left right) (fun _ _ => ConcatEnds h left right s)
    (fun e _ => e = .noNul ∧ ¬ ConcatEnds h left right s) s := by
  rw [concat, wp_bind]
  refine wp_strlen_ends (fun l hl => ?_) fun hnone => ⟨rfl, ?_⟩
  · refine wp_bind.mpr (wp_strlen_ends (fun r hr => ?_) fun hnone => ⟨rfl, ?_⟩)
    · have hends : ConcatEnds h left right s ↔ _ :=
        ⟨fun ⟨l', hl', r', hr', hends⟩ => by
          rw [Option.some.inj (hl'.symm.trans hl), Option.some.inj (hr'.symm.trans hr)] at hends
          exact (Mem.strcpy_strcat_isSome_iff hl).mpr hends,
        fun hsome => ⟨l, hl, r, hr, (Mem.strcpy_strcat_isSome_iff hl).mp hsome⟩⟩
      rw [hends, wp_bind, wp_malloc]
      exact wp_copyLoops_ends
    · rintro ⟨_, _, r, hr, _⟩
      exact Option.some_ne_none r (hr.symm.trans hnone)
  · rintro ⟨l, hl, _⟩
    exact Option.some_ne_none l (hl.symm.trans hnone)

theorem readable_of_asInt {m : Mem} {a : Word} (hv : asInt m v = some a) : Readable m v := by
  intro hstr
  rw [asInt, if_pos hstr] at hv
  obtain ⟨bs, hbs, -⟩ := Option.map_eq_some_iff.mp hv
  exact Option.isSome_iff_exists.mpr ⟨bs, hbs⟩

/-- An overflow, read off the unified operands. -/
theorem overflows_iff (hu : Unifies h s.mem left right c x y) :
    (Move.operation o left right s).Overflows ↔
      o.byte = chr '/' ∧ c = .int ∧ (x.val, y.val) = (BitVec.intMin 32, -1) := by
  have hc : c = commonType left.type right.type := hu.common
  rw [Move.Overflows, ← hc, Prod.mk.injEq]
  refine and_congr_right fun _ => and_congr_right fun hint => ?_
  rw [(hu.ints hint).1, (hu.ints hint).2, Option.some.injEq, Option.some.injEq]

/-- The condition of an operation, once its operands have been unified. -/
theorem ends_iff (hu : Unifies h s.mem left right c x y) :
    (Move.operation o left right s).Ends h ↔
      (c = .str → o.byte = chr '+' → ConcatEnds h left right s) ∧
      ¬ (Move.operation o left right s).Overflows := by
  have hc : c = commonType left.type right.type := hu.common
  rw [Move.Ends, ← hc]
  exact and_iff_right hu.readable

/-- **The switch ends** under the condition of the operation. -/
theorem wp_applyOp_ends {log : List Event} (result : MshVar)
    (hu : Unifies h s.mem left right c x y) : wp (applyOp h o.byte result c x y)
      (fun _ _ => (Move.operation o left right s).Ends h)
      (fun e _ => ¬ (Move.operation o left right s).Ends h ∧
        (e = .divTrap ↔ (Move.operation o left right s).Overflows)) { s with log := log } := by
  have hover := overflows_iff (o := o) hu
  have hends := ends_iff (h := h) (o := o) hu
  have hreturns (hstr : c = .str → o.byte ≠ chr '+') (hdiv : o.byte = chr '/' → c = .int →
      (x.val, y.val) ≠ (BitVec.intMin 32, -1)) : (Move.operation o left right s).Ends h :=
    hends.mpr ⟨fun hc hplus => absurd hplus (hstr hc), fun ho =>
      hdiv (hover.mp ho).1 (hover.mp ho).2.1 (hover.mp ho).2.2⟩
  unfold applyOp
  by_cases hplus : o.byte = chr '+'
  · have hdiv : o.byte ≠ chr '/' := by rw [hplus]; decide
    rw [if_pos hplus]
    cases c
    case str =>
      obtain ⟨rfl, rfl⟩ := hu.other (by decide) (by decide)
      have hno : ¬ (Move.operation o x y s).Overflows := fun ho => hdiv (hover.mp ho).1
      refine wp_bind.mpr (wp_mono wp_concat_ends (fun _ _ hc => ?_) fun e _ hstop => ?_)
      · exact hends.mpr ⟨fun _ _ => hc, hno⟩
      · refine ⟨fun he => hstop.2 ((hends.mp he).1 rfl hplus), ?_⟩
        rw [hstop.1]
        exact iff_of_false Stop.noConfusion hno
    all_goals exact hreturns (fun hc => MshType.noConfusion hc) fun hs => absurd hs hdiv
  · have hstr : c = .str → o.byte ≠ chr '+' := fun _ => hplus
    rw [if_neg hplus]
    by_cases hminus : o.byte = chr '-'
    · have hdiv : o.byte ≠ chr '/' := by rw [hminus]; decide
      rw [if_pos hminus]
      cases c <;> exact hreturns hstr fun hs => absurd hs hdiv
    rw [if_neg hminus]
    by_cases htimes : o.byte = chr '*'
    · have hdiv : o.byte ≠ chr '/' := by rw [htimes]; decide
      rw [if_pos htimes]
      cases c <;> exact hreturns hstr fun hs => absurd hs hdiv
    rw [if_neg htimes, wp_ite, wp_bind]
    refine ⟨fun hint => (wp_idiv _ _).mpr ⟨fun htrap => ?_, fun hok => ?_⟩, fun hno => ?_⟩
    · have hslash : o.byte = chr '/' := by
        simpa [hplus, hminus, htimes] using isOp_cases o.isOp
      have ho := hover.mpr ⟨hslash, hint.1, htrap⟩
      exact ⟨fun he => (hends.mp he).2 ho, iff_of_true rfl ho⟩
    · exact hreturns hstr fun _ _ => hok
    · have hret := hreturns hstr fun _ hint heq => by
        have hzero := not_not.mp fun h0 => hno ⟨hint, h0⟩
        rw [hzero] at heq
        exact absurd (Prod.mk.injEq .. ▸ heq).2 (by decide)
      rw [wp_ite]
      exact ⟨fun _ => hret, fun _ => hret⟩

/-- **An operation ends** under its condition, and traps if it overflows. -/
theorem wp_operation_ends : wp (operate h o left right)
    (fun _ _ => (Move.operation o left right s).Ends h)
    (fun e _ => ¬ (Move.operation o left right s).Ends h ∧
      (e = .divTrap ↔ (Move.operation o left right s).Overflows)) s := by
  rw [operate, wp_bind]
  refine wp_mono wp_unify (fun p t hu => ?_) fun e t hstop => ?_
  · obtain ⟨hu, rfl⟩ := hu
    exact wp_applyOp_ends _ hu
  · obtain ⟨⟨rfl, hnumber, hread⟩, -⟩ := hstop
    refine ⟨fun hends => hread (hends.1 hnumber), iff_of_false Stop.noConfusion fun ho => hread ?_⟩
    exact ⟨readable_of_asInt ho.2.2.1, readable_of_asInt ho.2.2.2⟩

end Operations

/-! ## Evaluations -/

section Evaluations

variable {h : Host} {s t : Machine} {m : Move}

/-- A move stops for a reason of the C. -/
theorem frame_act (h : Host) (m : Move) : Keeps Frame Stop.Real (m.act h) := by
  cases m with
  | operand s => exact frame_evalOperand h
  | operation o left right s =>
    have hquiet : Keeps Quiet Stop.Real (operate h o left right) :=
      .bind (quiet_unify h _ _) fun _ => quiet_applyOp h _ _ _ _ _
    exact fun s => (wp_map _).mpr (hquiet.mono (fun _ _ => Quiet.frame) s)

theorem wp_act_ends (h : Host) (m : Move) : wp (m.act h) (fun _ _ => m.Ends h)
    (fun e _ => ¬ m.Ends h ∧ (e = .divTrap ↔ m.Overflows)) m.start := by
  cases m with
  | operand s =>
    refine wp_mono wp_operand_ends (fun _ _ => id) fun e _ hstop => ⟨hstop.2, ?_⟩
    exact iff_of_false (fun he => Stop.noConfusion (hstop.1.symm.trans he)) id
  | operation o left right s => exact (wp_map _).mpr wp_operation_ends

/-- A move that does not end stops. -/
theorem Move.run_error_of_not_ends (hm : ¬ m.Ends h) :
    ∃ e t, m.run h = .error e t ∧ e.Real ∧ (e = .divTrap ↔ m.Overflows) := by
  cases hr : m.run h with
  | ok o t => exact absurd ((wp_of_ok hr).mp (wp_act_ends h m)) hm
  | error e t =>
    exact ⟨e, t, rfl, ((frame_act h m).error hr).1, ((wp_of_error hr).mp (wp_act_ends h m)).2⟩

theorem evaluates_evalExpr (h : Host) (s : Machine) :
    Evaluates h (s.code.length + 1) s (movesOf h s) (evalExpr h s) := evaluates h _ s

/-- An evaluation returns if all its moves do. -/
theorem evalExpr_ok_iff : (∃ v t, evalExpr h s = .ok v t) ↔ ∀ m ∈ movesOf h s, m.Ends h := by
  have hev := evaluates_evalExpr h s
  constructor
  · rintro ⟨v, t, hr⟩ m hm
    by_contra hends
    obtain ⟨e, u, hrun, hreal, -⟩ := Move.run_error_of_not_ends hends
    have hstop := (hev.error_iff hreal).mpr ⟨m, hm, hrun⟩
    rw [hr] at hstop
    cases hstop
  · intro hends
    cases hr : evalExpr h s with
    | ok v t => exact ⟨v, t, rfl⟩
    | error e t =>
      obtain ⟨m, hm, hrun⟩ := (hev.error_iff ((frame_evalExpr h).error hr).1).mp hr
      exact absurd (hends m hm) ((wp_of_error hrun).mp (wp_act_ends h m)).1

/-- The evaluation returns, no later than at the index `nul`; no variable has changed, and no error
been cleared. -/
def Bounded (h : Host) (s : Machine) (nul : ℕ) : Prop :=
  ∃ v t, evalExpr h s = .ok v t ∧ s.pc ≤ t.pc ∧ t.pc ≤ nul ∧
    (s.hadError = true → t.hadError = true) ∧ t.varCount = s.varCount ∧ t.vars = s.vars

/-- **An evaluation is bounded and changes no variable**, if it meets no string without an end, none
that is copied into itself, and no division that traps. -/
theorem evalExpr_bounded_iff (h : Host) {s : Machine} {nul : ℕ} (hnul : s.code.getD nul 0 = 0)
    (hpc : s.pc ≤ nul) : Bounded h s nul ↔ ∀ m ∈ movesOf h s, m.Ends h := by
  rw [← evalExpr_ok_iff]
  constructor
  · exact fun ⟨v, t, hr, _⟩ => ⟨v, t, hr⟩
  · rintro ⟨v, t, hr⟩
    have hf := (frame_evalExpr h).ok hr
    exact ⟨v, t, hr, hf.pc_le, hf.pc_bound nul hnul hpc, hf.err, hf.varCount, hf.vars⟩

/-- A quotient of two literals. -/
theorem evalExpr_bounded_quotient : Bounded Host.bare (reading (str "7 / 2")) 5 :=
  (evalExpr_bounded_iff Host.bare (by decide) (by decide)).mpr (by decide +kernel)

/-- `"a" + "b"`, when the heap is used up. -/
def fullHeap : Machine := { reading (str "\"a\" + \"b\"") with heapIndex := heapSize }

/-- The one traps; in the other every string is at NULL, and `strcat` copies it behind itself for
ever. -/
theorem not_evalExpr_bounded :
    ¬ Bounded Host.bare (reading (str "2147483648 / 0 - 1")) 18 ∧
      ¬ Bounded Host.bare fullHeap 9 := by
  have hno {s : Machine} {nul : ℕ} (hm : ∃ m ∈ movesOf Host.bare s, ¬ m.Ends Host.bare) :
      ¬ Bounded Host.bare s nul := by
    rintro ⟨v, t, hr, -⟩
    obtain ⟨m, hm, hstuck⟩ := hm
    exact hstuck (evalExpr_ok_iff.mp ⟨v, t, hr⟩ m hm)
  exact ⟨hno (by decide +kernel), hno (by decide +kernel)⟩

/-! ## Divisions -/

/-- The only quotient that no `int` can hold. -/
theorem inRange_tdiv {x y : Word} (hxy : (x, y) ≠ (BitVec.intMin 32, -1)) :
    InRange (x.toInt.tdiv y.toInt) := by
  have hne : x ≠ BitVec.intMin 32 ∨ y ≠ -1#32 := by
    by_contra hboth
    obtain ⟨hx, hy⟩ := not_or.mp hboth
    exact hxy (Prod.ext (not_not.mp hx) (not_not.mp hy))
  rw [← BitVec.toInt_sdiv_of_ne_or_ne x y hne]
  exact ⟨BitVec.le_toInt _, BitVec.toInt_lt⟩

/-- A division that does not overflow is made, or reported. -/
theorem Move.divides_of_not_overflows (hm : ¬ m.Overflows) : m.Divides h := by
  cases m with
  | operand s => trivial
  | operation o left right s =>
    intro hslash hint x hx y hy
    rw [operate, wp_bind]
    refine wp_mono wp_unify (fun p t hu => ?_) fun e t hstop => hstop.1.2.2
      ⟨readable_of_asInt hx, readable_of_asInt hy⟩
    obtain ⟨hu, rfl⟩ := hu
    obtain ⟨c, l, r⟩ := p
    obtain rfl : c = .int := hu.common.trans hint
    obtain rfl : l.val = x := Option.some.inj ((hu.ints rfl).1.symm.trans hx)
    obtain rfl : r.val = y := Option.some.inj ((hu.ints rfl).2.symm.trans hy)
    have hrange := inRange_tdiv fun heq => hm ((overflows_iff hu).mpr ⟨hslash, rfl, heq⟩)
    by_cases h0 : r.val.toInt = 0
    · have hzero : r.val = 0 := BitVec.eq_of_toInt_eq h0
      simp only [ne_eq, h0, not_true, false_and, if_false]
      unfold applyOp
      rw [hslash, if_neg (by decide), if_neg (by decide), if_neg (by decide)]
      simp [hzero]
    · have hz : o.onInts l.val.toInt r.val.toInt = some (l.val.toInt.tdiv r.val.toInt) := by
        rw [Op.onInts, hslash, if_neg (by decide), if_neg (by decide), if_neg (by decide),
          if_neg h0, fit, if_pos hrange]
      obtain ⟨w, happly, hw⟩ := applyOp_ints h { left with type := .int } hz
      rw [wp_of_ok happly, if_pos ⟨h0, hrange⟩]
      exact ⟨hw, rfl⟩

/-- One that does traps. -/
theorem Move.not_divides_of_overflows (hm : m.Overflows) : ¬ m.Divides h := by
  cases m with
  | operand s => exact hm.elim
  | operation o left right s =>
    obtain ⟨hslash, hint, hx, hy⟩ := id hm
    intro hdiv
    obtain ⟨v, t, hr, -⟩ := wp_returns.mp (hdiv hslash hint _ hx _ hy)
    exact ((wp_of_ok hr).mp wp_operation_ends).2.2 hm

/-- **Divisions of `int`s are made or reported, and do not trap**, as long as none of them is that
of -2³¹ by -1. -/
theorem divides_iff (h : Host) (s : Machine) :
    ((∀ t, evalExpr h s ≠ .error .divTrap t) ∧ ∀ m ∈ movesOf h s, m.Divides h) ↔
      ∀ m ∈ movesOf h s, ¬ m.Overflows := by
  constructor
  · exact fun hall m hm ho => Move.not_divides_of_overflows ho (hall.2 m hm)
  · refine fun hno => ⟨fun t hr => ?_, fun m hm => Move.divides_of_not_overflows (hno m hm)⟩
    obtain ⟨m, hm, hrun⟩ := ((evaluates_evalExpr h s).error_iff Stop.noConfusion).mp hr
    exact hno m hm (((wp_of_error hrun).mp (wp_act_ends h m)).2.mp rfl)

/-- The literal is -2³¹, and what is behind the `/` is -1. -/
theorem not_divides_wrapped :
    ¬ ((∀ t, evalExpr Host.bare (reading (str "2147483648 / 0 - 1")) ≠ .error .divTrap t) ∧
      ∀ m ∈ movesOf Host.bare (reading (str "2147483648 / 0 - 1")), m.Divides Host.bare) := by
  rintro ⟨-, hall⟩
  have hover : ∃ m ∈ movesOf Host.bare (reading (str "2147483648 / 0 - 1")), m.Overflows := by
    decide +kernel
  obtain ⟨m, hm, ho⟩ := hover
  exact Move.not_divides_of_overflows ho (hall m hm)

end Evaluations

end HuskyKernel
