import HuskyKernel.BuiltIn.Denote

/-!
# BuiltIn/Chains — how a chain of integers is evaluated

The right operand of an operator is all that is behind it: the four operators have one precedence,
and group from the right.  A chain has the value of that grouping (`evalExpr_chain`) as long as no
value on the way leaves the range of an `int`, and not the one school arithmetic gives it
(`not_conventional`).
-/

namespace HuskyKernel

open Wp Scan Msh

/-! ## Chains and their values -/

/-- Integer literals with operators between them, and the blanks in front of each. -/
inductive Chain where
  | last (b : Blanks) (d : Number)
  | op (b : Blanks) (d : Number) (b' : Blanks) (o : Op) (c : Chain)

/-- A chain is an expression. -/
def Chain.expr : Chain → Expr
  | last b d => .last b (.number d)
  | op b d b' o c => .op b (.number d) b' o c.expr

/-- An `int` can hold it. -/
def InRange (z : ℤ) : Prop := -2 ^ 31 ≤ z ∧ z < 2 ^ 31

instance {z : ℤ} : Decidable (InRange z) := inferInstanceAs (Decidable (_ ∧ _))

/-- The number itself, if an `int` can hold it. -/
def fit (z : ℤ) : Option ℤ := if InRange z then some z else none

/-- The number a literal spells. -/
def Number.toNat (d : Number) : ℕ :=
  d.text.foldl (fun n c => n * 10 + (c.toNat - (chr '0').toNat)) 0

/-- An operation on integers; there is no quotient by 0, and quotients are truncated. -/
def Op.onInts (o : Op) (x y : ℤ) : Option ℤ :=
  if o.byte = chr '+' then fit (x + y)
  else if o.byte = chr '-' then fit (x - y)
  else if o.byte = chr '*' then fit (x * y)
  else if y = 0 then none
  else fit (x.tdiv y)

namespace Chain

/-- The value, grouped from the right. -/
def fromRight : Chain → Option ℤ
  | last _ d => fit d.toNat
  | op _ d _ o c => (fit d.toNat).bind fun x => c.fromRight.bind fun y => o.onInts x y

/-- The value of a chain behind `add`, which waits for a term, and `mul`, which waits for a
factor. -/
def valueFrom : (ℤ → Option ℤ) → (ℤ → Option ℤ) → Chain → Option ℤ
  | add, mul, last _ d => ((fit d.toNat).bind mul).bind add
  | add, mul, op _ d _ o c =>
      ((fit d.toNat).bind mul).bind fun t =>
        if o.byte = chr '*' ∨ o.byte = chr '/' then c.valueFrom add (o.onInts t)
        else (add t).bind fun s => c.valueFrom (o.onInts s) some

/-- The conventional value: `*` and `/` before `+` and `-`, and from left to right. -/
def conventional (c : Chain) : Option ℤ := c.valueFrom some some

end Chain

/-! ## Arithmetic in words -/

section Words

variable {x y w : Word} {z z' : ℤ} {o : Op} {s : Machine}

theorem fit_eq_some : fit z = some z' ↔ InRange z ∧ z = z' := by
  rw [fit]
  split_ifs with h
  · exact ⟨fun hz => ⟨h, Option.some.inj hz⟩, fun hz => congrArg some hz.2⟩
  · exact iff_of_false id fun hz => h hz.1

/-- Wrapping leaves a number in range as it is. -/
theorem InRange.bmod (h : InRange z) : z.bmod (2 ^ 32) = z := by
  obtain ⟨hge, hlt⟩ := h
  exact Int.bmod_eq_of_le_mul_two (by omega) (by omega)

/-- One digit more. -/
theorem ofNat_digit {c : Byte} (hc : isdigit c = true) (n : ℕ) :
    BitVec.ofNat 32 n * 10 + digit c = BitVec.ofNat 32 (n * 10 + (c.toNat - (chr '0').toNat)) := by
  rw [isdigit, Bool.and_eq_true, decide_eq_true_eq, UInt8.le_iff_toNat_le] at hc
  have hlt := c.toNat_lt
  have hdigit : digit c = BitVec.ofNat 32 (c.toNat - (chr '0').toNat) := by
    rw [digit]
    bv_omega
  rw [hdigit, BitVec.ofNat_add, BitVec.ofNat_mul]
  rfl

theorem decimal_eq_toNat (d : Number) : decimal d.text = BitVec.ofNat 32 d.toNat := by
  have hstep : ∀ (cs : List Byte) (n : ℕ), (∀ c ∈ cs, isdigit c = true) →
      cs.foldl (fun result c => result * 10 + digit c) (BitVec.ofNat 32 n) =
        BitVec.ofNat 32 (cs.foldl (fun n c => n * 10 + (c.toNat - (chr '0').toNat)) n) := by
    intro cs
    induction cs with
    | nil => exact fun _ _ => rfl
    | cons c cs ih =>
      intro n hcs
      rw [List.foldl_cons, List.foldl_cons, ← ih _ fun c hc => hcs c (List.mem_cons_of_mem _ hc),
        ofNat_digit (hcs c List.mem_cons_self)]
  exact hstep d.text 0 d.digits

theorem toInt_decimal {d : Number} (h : fit d.toNat = some z) : (decimal d.text).toInt = z := by
  obtain ⟨hrange, rfl⟩ := fit_eq_some.mp h
  rw [decimal_eq_toNat, BitVec.toInt_ofNat']
  exact hrange.bmod

/-- **An operation on `int`s in range is what the switch computes.** -/
theorem applyOp_ints (h : Host) (v : MshVar) {l r : MshVar}
    (hz : o.onInts l.val.toInt r.val.toInt = some z) :
    ∃ w, applyOp h o.byte v .int l r s = .ok { v with val := w } s ∧ w.toInt = z := by
  rw [Op.onInts] at hz
  unfold applyOp
  by_cases hadd : o.byte = chr '+'
  · rw [if_pos hadd] at hz ⊢
    obtain ⟨hrange, rfl⟩ := fit_eq_some.mp hz
    exact ⟨_, rfl, (BitVec.toInt_add _ _).trans hrange.bmod⟩
  rw [if_neg hadd] at hz ⊢
  by_cases hsub : o.byte = chr '-'
  · rw [if_pos hsub] at hz ⊢
    obtain ⟨hrange, rfl⟩ := fit_eq_some.mp hz
    exact ⟨_, rfl, BitVec.toInt_sub.trans hrange.bmod⟩
  rw [if_neg hsub] at hz ⊢
  by_cases hmul : o.byte = chr '*'
  · rw [if_pos hmul] at hz ⊢
    obtain ⟨hrange, rfl⟩ := fit_eq_some.mp hz
    exact ⟨_, rfl, (BitVec.toInt_mul _ _).trans hrange.bmod⟩
  rw [if_neg hmul] at hz ⊢
  by_cases h0 : r.val.toInt = 0
  · rw [if_pos h0] at hz
    cases hz
  rw [if_neg h0] at hz
  obtain ⟨hrange, rfl⟩ := fit_eq_some.mp hz
  have hne : r.val ≠ 0 := fun hr => h0 (by rw [hr]; rfl)
  have hfits : ¬ (l.val = BitVec.intMin 32 ∧ r.val = -1) := by
    rintro ⟨hl, hr⟩
    rw [hl, hr] at hrange
    exact absurd hrange (by decide)
  rw [if_pos ⟨rfl, hne⟩, idiv, if_neg hfits]
  exact ⟨_, rfl, (BitVec.toInt_sdiv _ _).trans hrange.bmod⟩

end Words

/-! ## Evaluating a chain -/

section Evaluation

variable {s t : Machine} {zs tail : List Byte} {E : Stop → Machine → Prop} {z : ℤ}

/-- An `int` of no name. -/
def intVar (w : Word) : MshVar := { MshVar.zero with type := .int, val := w }

theorem wp_evalOperand_number (h : Host) (eval : Msh MshVar) {b : Blanks} {d : Number}
    (hr : s.rest = b.text ++ (d.text ++ zs)) (hz : isdigit (zs.headD 0) = false) :
    wp (evalOperand h eval) (fun o t => o = .left (intVar (decimal d.text)) ∧ t.rest = zs ∧
      t.hadError = s.hadError) E s := by
  have hskip : (skipped s).rest = d.text ++ zs :=
    rest_skipped_of_blanks hr (isspace_headD_prim (p := .number d) hz)
  have hcur : isdigit (skipped s).cur = true := by
    rw [cur_eq hskip, headD_append isdigit_zero d.digit]
    exact d.digit
  have hds : scanned isdigit (skipped s).code (skipped s).pc = d.text :=
    scanned_append hskip d.digits hz
  rw [evalOperand, wp_bind, wp_skipWhitespace, wp_bind, wp_peek, seen_skipped, if_pos hcur, wp_bind,
    numberLiteral, wp_bind, wp_scanCode, hds]
  exact ⟨rfl, rest_scan hskip d.digits hz, rfl⟩

/-- Two `int`s are left as they are. -/
theorem unify_ints (h : Host) (x y : Word) :
    unify h (intVar x) (intVar y) = pure (.int, intVar x, intVar y) := by
  have heq : ¬ (intVar x).type ≠ (intVar y).type := not_not.mpr rfl
  rw [unify, if_neg heq]
  rfl

/-- **A chain has its value from the right** — induction on the chain. -/
theorem wp_evalExprN_chain (h : Host) (c : Chain) {n : ℕ} {s : Machine} {z : ℤ}
    (hrest : s.rest = c.expr.text ++ tail) (he : c.expr.Ends tail) (hn : c.expr.text.length < n)
    (hz : c.fromRight = some z) :
    wp (evalExprN h n) (fun v t => (∃ w, v = intVar w ∧ w.toInt = z) ∧
      t.rest = tail.dropWhile isspace ∧ t.hadError = s.hadError) (fun _ _ => False) s := by
  induction c generalizing n s z with
  | last b d =>
    obtain ⟨n, rfl⟩ : ∃ m, n = m + 1 := ⟨n - 1, by omega⟩
    rw [Chain.expr, Expr.text, List.append_assoc] at hrest
    rw [evalExprN]
    refine wp_bind.mpr (wp_mono (wp_evalOperand_number h _ hrest he.1) ?_ fun _ _ => id)
    rintro _ t ⟨rfl, ht, herr⟩
    have hskip : (skipped t).rest = tail.dropWhile isspace := by rw [rest_skipped, ht]
    refine Iff.mpr wp_bind (wp_skipWhitespace.mpr (wp_bind.mpr (wp_peek.mpr ?_)))
    rw [seen_skipped, if_neg (by rw [cur_eq hskip]; exact Bool.eq_false_iff.mp he.2)]
    exact ⟨⟨_, rfl, toInt_decimal hz⟩, hskip, herr⟩
  | op b d b' o c ih =>
    obtain ⟨n, rfl⟩ : ∃ m, n = m + 1 := ⟨n - 1, by omega⟩
    obtain ⟨x, hx, hz⟩ := Option.bind_eq_some_iff.mp hz
    obtain ⟨y, hy, hz⟩ := Option.bind_eq_some_iff.mp hz
    have hlen : c.expr.text.length < n := by
      simp only [Chain.expr, Expr.text, List.length_append, List.length_cons] at hn
      omega
    have hrest' : s.rest = b.text ++ (d.text ++ (b'.text ++ o.byte :: (c.expr.text ++ tail))) := by
      rw [hrest, Chain.expr, Expr.text]
      simp only [Prim.text, List.append_assoc, List.cons_append]
    have hends : isdigit ((b'.text ++ o.byte :: (c.expr.text ++ tail)).headD 0) = false := by
      have hd : isdigit ((b'.text ++ [o.byte]).headD 0) = false := he.1
      rw [← hd]
      cases b'.text <;> rfl
    rw [evalExprN]
    refine wp_bind.mpr (wp_mono (wp_evalOperand_number h _ hrest' hends) ?_ fun _ _ => id)
    rintro _ t ⟨rfl, ht, herr⟩
    have hskip := rest_skipped_of_blanks ht (isspace_of_isOp o.isOp)
    have hcur : (skipped t).cur = o.byte := cur_eq hskip
    refine Iff.mpr wp_bind (wp_skipWhitespace.mpr (wp_bind.mpr (wp_peek.mpr ?_)))
    rw [seen_skipped, if_pos (by rw [hcur]; exact o.isOp), wp_bind, wp_advance, wp_bind, hcur]
    refine wp_mono (ih (rest_advance hskip) he.2 hlen hy) ?_ fun _ _ => id
    rintro _ u ⟨⟨w, rfl, hw⟩, hu, herr'⟩
    rw [← toInt_decimal hx, ← hw] at hz
    obtain ⟨v, happly, hv⟩ := applyOp_ints (s := u) h
      (intVar (decimal d.text)) (l := intVar (decimal d.text)) (r := intVar w) hz
    rw [unify_ints]
    exact (wp_of_ok happly).mpr ⟨⟨v, rfl, hv⟩, hu, herr'.trans herr⟩

/-- **`eval_expr` groups from the right**: it returns that value of the chain in front of the cursor
whenever an `int` can hold everything on the way, and raises no error. -/
theorem evalExpr_chain (h : Host) (s : Machine) (c : Chain) (tail : List Byte) (z : ℤ)
    (hrest : s.rest = c.expr.text ++ tail) (he : c.expr.Ends tail) (hz : c.fromRight = some z) :
    ∃ v t, evalExpr h s = .ok v t ∧ v.type = .int ∧ v.val.toInt = z ∧
      t.hadError = s.hadError ∧ t.rest = tail.dropWhile isspace := by
  have hdeep : c.expr.text.length < s.code.length + 1 := by
    have hlen := congrArg List.length hrest
    rw [Machine.rest, List.length_drop, List.length_append] at hlen
    omega
  obtain ⟨v, t, hrun, ⟨w, rfl, hw⟩, ht, herr⟩ :=
    wp_returns.mp (wp_evalExprN_chain h c hrest he hdeep hz)
  exact ⟨_, t, hrun, rfl, hw, herr, ht⟩

/-- `10 - 3 - 2`. -/
def twoDifferences : Chain :=
  .op .none ⟨str "10", by decide, List.all_eq_true.mp rfl⟩ .one ⟨chr '-', by decide⟩
    (.op .one ⟨str "3", by decide, List.all_eq_true.mp rfl⟩ .one ⟨chr '-', by decide⟩
      (.last .one ⟨str "2", by decide, List.all_eq_true.mp rfl⟩))

/-- A machine in front of a text. -/
def reading (text : List Byte) : Machine := { Machine.boot with code := text ++ [0] }

theorem evalExpr_chain_differences : ∃ v t,
    evalExpr Host.bare (reading twoDifferences.expr.text) = .ok v t ∧ v.type = .int ∧
      v.val.toInt = 9 ∧ t.hadError = false ∧ t.rest = ([0] : List Byte).dropWhile isspace :=
  evalExpr_chain Host.bare (reading twoDifferences.expr.text) twoDifferences [0] 9 rfl
    (by simp only [twoDifferences, Chain.expr, Expr.Ends, Prim.Ends]; decide) (by decide +kernel)

/-- `10 - 3 - 2` is 9. -/
theorem not_conventional : ¬ ∀ (h : Host) (s : Machine) (c : Chain) (tail : List Byte) (z : ℤ),
    s.rest = c.expr.text ++ tail → c.expr.Ends tail → c.conventional = some z →
    ∃ v t, evalExpr h s = .ok v t ∧ v.type = .int ∧ v.val.toInt = z ∧
      t.hadError = s.hadError := by
  intro hall
  obtain ⟨v, t, hrun, -, hval, -⟩ := hall Host.bare (reading twoDifferences.expr.text)
    twoDifferences [0] 5 rfl
    (by simp only [twoDifferences, Chain.expr, Expr.Ends, Prim.Ends]; decide) (by decide +kernel)
  have hnine : check (evalExpr Host.bare) (fun v _ => v.val.toInt = 9)
      (reading twoDifferences.expr.text) = true := by decide +kernel
  obtain ⟨v', t', hrun', hval'⟩ := of_check hnine
  obtain ⟨rfl, -⟩ := EStateM.Result.ok.inj (hrun.symm.trans hrun')
  rw [of_decide_eq_true hval'] at hval
  exact absurd hval (by decide)

end Evaluation

end HuskyKernel
