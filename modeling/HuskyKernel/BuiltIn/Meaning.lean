import HuskyKernel.BuiltIn.Statements

/-!
# BuiltIn/Meaning — what assignments mean

The meaning of expressions and of lines of assignments, without a program text and without memory:
a value is its `msh_var_t` together with the text of the string it points to (`Val`), and what lines
work on (`Env`) knows of the heap only how much of it has been handed out.  Blocks are handed out in
order, so addresses are what they are on the machine.

Divisions of `int`s are recorded.  The processor traps on one of them, `-2³¹ / -1`; the meaning goes
on with the wrapped quotient.
-/

namespace HuskyKernel

open Msh

/-- A value, and the text of the string at the address it holds: of use unless it is a number. -/
structure Val where
  var : MshVar
  text : List Byte
deriving DecidableEq

/-- What lines work on: the variable table, the bytes of the heap handed out, whether there was an
error, the buffer of `parse_ident`, the string at NULL, and the divisions made. -/
structure Env where
  vars : ℕ → Val
  varCount : ℕ
  top : ℕ
  hadError : Bool
  identBuf : List Byte
  null : List Byte
  divisions : List (Word × Word)

namespace Env

/-- `find_var`. -/
def lookup (a : Env) (name : List Byte) : Option ℕ :=
  (List.range a.varCount).find? fun i => strcmp (a.vars i).var.bytes name = 0

/-- `had_error = true`. -/
def fail (a : Env) : Env := { a with hadError := true }

/-- No division made so far traps. -/
def Safe (a : Env) : Prop := ∀ d ∈ a.divisions, d ≠ (BitVec.intMin 32, -1)

instance {a : Env} : Decidable a.Safe :=
  List.decidableBAll (fun d => d ≠ (BitVec.intMin 32, -1)) a.divisions

variable (h : Host)

/-- A string with the text `text`, in a block of its own.  Behind a division that traps no block is
handed out any more. -/
def fresh (v : MshVar) (text : List Byte) (a : Env) : Val × Env :=
  (⟨{ v with val := h.heap.base + BitVec.ofNat 32 a.top }, text⟩,
    { a with top := if a.Safe then a.top + (text.length + 1) else a.top })

end Env

variable (h : Host)

/-! ## Expressions -/

/-- The value of a variable: a string is copied, unless it is NULL. -/
def Val.copy (v : Val) (a : Env) : Val × Env :=
  if v.var.type = .str ∧ v.var.val ≠ 0 then a.fresh h v.var v.text else (v, a)

/-- The value of a name. -/
def Env.read (name : List Byte) (a : Env) : Val × Env :=
  match a.lookup name with
  | some i => (a.vars i).copy h a
  | none => (⟨MshVar.zero, a.null⟩, a.fail)

theorem Env.read_some {h : Host} {name : List Byte} {a : Env} {i : ℕ}
    (hl : a.lookup name = some i) : a.read h name = (a.vars i).copy h a := by
  rw [read, hl]

theorem Env.read_none {h : Host} {name : List Byte} {a : Env} (hl : a.lookup name = none) :
    a.read h name = (⟨MshVar.zero, a.null⟩, a.fail) := by
  rw [read, hl]

/-- The value of an operand. -/
def Prim.value : Prim → Env → Val × Env
  | number d, a => (⟨{ MshVar.zero with type := .int, val := decimal d.text }, []⟩, a)
  | string q, a => a.fresh h { MshVar.zero with type := .str } q.text
  | var n, a => Env.read h n.name { a with identBuf := n.name }
  | empty, a => (⟨MshVar.zero, a.null⟩, a)

/-- FLOAT wins over INT, INT over the rest; of two other types the left one counts. -/
def commonType (left right : MshType) : MshType :=
  if left ≠ right then
    if left = .float ∨ right = .float then .float
    else if left = .int ∨ right = .int then .int
    else left
  else left

/-- The bits of a value, converted to a type. -/
def Val.as (v : Val) (target : MshType) : Word :=
  match v.var.type, target with
  | .int, .float => h.fpu.ofInt v.var.val
  | .float, .int => h.fpu.toInt v.var.val
  | .str, .int => atoi v.text
  | .str, .float => h.fpu.atof v.text
  | _, _ => v.var.val

/-- A value that has the type. -/
theorem Val.as_type {h : Host} (v : Val) : v.as h v.var.type = v.var.val := by
  unfold Val.as
  cases v.var.type <;> rfl

/-- What an operation comes to: a number, a quotient of `int`s, a text, nothing, or an error. -/
inductive OpResult where
  | number (w : Word)
  | quotient (x y : Word)
  | text (bs : List Byte)
  | nothing
  | error

/-- The result of an operation. -/
def Op.result (o : Op) (left right : Val) : OpResult :=
  let common := commonType left.var.type right.var.type
  let x := left.as h common
  let y := right.as h common
  if o.byte = chr '+' then
    match common with
    | .int => .number (x + y)
    | .float => .number (h.fpu.add x y)
    | .str => .text (left.text ++ right.text)
    | _ => .nothing
  else if o.byte = chr '-' then
    match common with
    | .int => .number (x - y)
    | .float => .number (h.fpu.sub x y)
    | _ => .nothing
  else if o.byte = chr '*' then
    match common with
    | .int => .number (x * y)
    | .float => .number (h.fpu.mul x y)
    | _ => .nothing
  else if common = .int ∧ y ≠ 0 then .quotient x y
  else if common = .float ∧ !h.fpu.isZero y then .number (h.fpu.div x y)
  else .error

/-- The value of an operation.  One that comes to nothing keeps the bits of its left operand. -/
def Op.apply (o : Op) (left right : Val) (a : Env) : Val × Env :=
  let result := { left.var with type := commonType left.var.type right.var.type }
  match o.result h left right with
  | .number w => (⟨{ result with val := w }, left.text⟩, a)
  | .quotient x y =>
      (⟨{ result with val := x.sdiv y }, left.text⟩, { a with divisions := (x, y) :: a.divisions })
  | .text bs => a.fresh h result bs
  | .nothing => (⟨result, left.text⟩, a)
  | .error => (⟨result, left.text⟩, a.fail)

/-- The value of an expression. -/
def Expr.value : Expr → Env → Val × Env
  | last _ p, a => p.value h a
  | op _ p _ o e, a =>
      let (left, a) := p.value h a
      let (right, a) := e.value a
      o.apply h left right a

/-! ## Lines -/

/-- A value stored: in the entry of that name, in a new one, or nowhere. -/
def Env.assigned (v : Val) (a : Env) : Env :=
  match a.lookup a.identBuf with
  | some i => { a with vars := Function.update a.vars i v }
  | none =>
    if a.varCount < 64 then
      { a with vars := Function.update a.vars a.varCount v, varCount := a.varCount + 1 }
    else a.fail

/-- The effect of an assignment. -/
def Assign.exec (s : Assign) (a : Env) : Env :=
  let (v, a) := s.expr.value h { a with identBuf := s.target.name }
  if a.hadError then a else a.assigned v

/-- Assignments, one after another, up to the first that fails. -/
def Env.run : List Assign → Env → Env
  | [], a => a
  | s :: ss, a => if (s.exec h a).hadError then s.exec h a else Env.run ss (s.exec h a)

/-- Assignments, each of them a program of its own: of those in `ss` one that fails is run once
more, and nothing behind it. -/
def Env.runEach : List Assign → Option Assign → Env → Env
  | [], last, a => Env.run h last.toList a
  | s :: ss, last, a =>
      let b := s.exec h a
      if b.hadError then s.exec h { b with hadError := false } else Env.runEach ss last b

/-! ## What evaluation leaves alone -/

section Evolves

/-- From `a` to `b` more of the heap has been handed out, and more divisions have been made. -/
structure Env.Grows (a b : Env) : Prop where
  null : b.null = a.null
  top : a.top ≤ b.top
  divisions : a.divisions ⊆ b.divisions

/-- From `a` to `b` something has been evaluated: the table is as it was, no error cleared. -/
structure Env.Evolves (a b : Env) : Prop extends Env.Grows a b where
  vars : b.vars = a.vars
  varCount : b.varCount = a.varCount
  hadError : a.hadError = true → b.hadError = true

variable {h} {a b c : Env}

/-- Nothing else counts. -/
theorem Env.Grows.of_eq (hn : b.null = a.null) (ht : b.top = a.top)
    (hd : b.divisions = a.divisions) : a.Grows b := ⟨hn, ht.ge, hd ▸ List.Subset.refl _⟩

theorem Env.Grows.refl (a : Env) : a.Grows a := .of_eq rfl rfl rfl

theorem Env.Grows.trans (hab : a.Grows b) (hbc : b.Grows c) : a.Grows c :=
  ⟨hbc.null.trans hab.null, hab.top.trans hbc.top, List.Subset.trans hab.divisions hbc.divisions⟩

theorem Env.Grows.safe (hab : a.Grows b) (hb : b.Safe) : a.Safe := fun d hd =>
  hb d (hab.divisions hd)

theorem Env.Evolves.refl (a : Env) : a.Evolves a := ⟨.refl a, rfl, rfl, id⟩

theorem Env.Evolves.trans (hab : a.Evolves b) (hbc : b.Evolves c) : a.Evolves c :=
  ⟨hab.toGrows.trans hbc.toGrows, hbc.vars.trans hab.vars, hbc.varCount.trans hab.varCount,
    fun he => hbc.hadError (hab.hadError he)⟩

theorem Env.evolves_fail (a : Env) : a.Evolves a.fail :=
  ⟨.of_eq rfl rfl rfl, rfl, rfl, fun _ => rfl⟩

theorem Env.evolves_identBuf (a : Env) (name : List Byte) :
    a.Evolves { a with identBuf := name } := ⟨.of_eq rfl rfl rfl, rfl, rfl, id⟩

theorem Env.top_fresh (hsafe : a.Safe) (v : MshVar) (text : List Byte) :
    (a.fresh h v text).2.top = a.top + (text.length + 1) := if_pos hsafe

theorem Env.evolves_fresh (v : MshVar) (text : List Byte) (a : Env) :
    a.Evolves (a.fresh h v text).2 := by
  refine ⟨⟨rfl, ?_, List.Subset.refl _⟩, rfl, rfl, id⟩
  change a.top ≤ if a.Safe then a.top + (text.length + 1) else a.top
  split
  · exact Nat.le_add_right _ _
  · exact Nat.le_refl _

theorem Val.evolves_copy (v : Val) (a : Env) : a.Evolves (v.copy h a).2 := by
  rw [copy]
  split
  · exact Env.evolves_fresh _ _ a
  · exact .refl a

theorem Env.evolves_read (name : List Byte) (a : Env) : a.Evolves (a.read h name).2 := by
  rw [read]
  split
  · exact Val.evolves_copy _ a
  · exact Env.evolves_fail a

theorem Prim.evolves_value (p : Prim) (a : Env) : a.Evolves (p.value h a).2 := by
  cases p with
  | number d => exact .refl a
  | string q => exact Env.evolves_fresh _ _ a
  | var n =>
    exact (a.evolves_identBuf n.name).trans (Env.evolves_read _ _)
  | empty => exact .refl a

theorem Op.evolves_apply (o : Op) (left right : Val) (a : Env) :
    a.Evolves (o.apply h left right a).2 := by
  rw [Op.apply]
  cases o.result h left right with
  | number w => exact .refl a
  | quotient x y => exact ⟨⟨rfl, Nat.le_refl _, List.subset_cons_self _ _⟩, rfl, rfl, id⟩
  | text bs => exact Env.evolves_fresh _ _ a
  | nothing => exact .refl a
  | error => exact Env.evolves_fail a

theorem Expr.evolves_value (e : Expr) (a : Env) : a.Evolves (e.value h a).2 := by
  induction e generalizing a with
  | last _ p => exact p.evolves_value a
  | op _ p _ o e ih =>
    exact ((p.evolves_value a).trans (ih _)).trans (o.evolves_apply _ _ _)

end Evolves

/-! ## The same again

Evaluated once more, with more of the heap handed out, an expression has the same value up to
addresses, and fails if it did before.  Behind an error that need not be so: an address may have
been taken for an `int` by then. -/

section Alike

/-- The same value, but that a string may lie elsewhere. -/
structure Val.Alike (v w : Val) : Prop where
  name : v.var.name = w.var.name
  type : v.var.type = w.var.type
  val : v.var.type ≠ .str → v.var.val = w.var.val
  text : v.text = w.text

/-- The same table, buffer and error. -/
structure Env.Alike (a b : Env) : Prop where
  vars : a.vars = b.vars
  varCount : a.varCount = b.varCount
  null : a.null = b.null
  identBuf : a.identBuf = b.identBuf
  hadError : a.hadError = b.hadError

/-- Alike up to the first error. -/
structure Agree (r r' : Val × Env) : Prop where
  env : r.2.Alike r'.2
  val : r.2.hadError = false → r.1.Alike r'.1

variable {h} {a b : Env} {l r l' r' : Val}

theorem Val.Alike.refl (v : Val) : v.Alike v := ⟨rfl, rfl, fun _ => rfl, rfl⟩

theorem Agree.same (hab : a.Alike b) (v : Val) : Agree (v, a) (v, b) := ⟨hab, fun _ => .refl v⟩

theorem Env.Alike.fail (hab : a.Alike b) : a.fail.Alike b.fail :=
  ⟨hab.vars, hab.varCount, hab.null, hab.identBuf, rfl⟩

theorem Env.Alike.fresh (hab : a.Alike b) {v w : MshVar} (hname : v.name = w.name)
    (hv : v.type = .str) (hw : w.type = .str) {text text' : List Byte} (ht : text = text') :
    Agree (a.fresh h v text) (b.fresh h w text') :=
  ⟨⟨hab.vars, hab.varCount, hab.null, hab.identBuf, hab.hadError⟩,
    fun _ => ⟨hname, hv.trans hw.symm, fun hne => absurd hv hne, ht⟩⟩

theorem Val.copy_agree (hab : a.Alike b) (v : Val) : Agree (v.copy h a) (v.copy h b) := by
  rw [copy, copy]
  by_cases hv : v.var.type = .str ∧ v.var.val ≠ 0
  · rw [if_pos hv, if_pos hv]
    exact hab.fresh rfl hv.1 hv.1 rfl
  · rw [if_neg hv, if_neg hv]
    exact .same hab v

theorem Env.read_agree (hab : a.Alike b) (name : List Byte) :
    Agree (a.read h name) (b.read h name) := by
  have hlookup : b.lookup name = a.lookup name := by
    rw [lookup, lookup, hab.vars, hab.varCount]
  rw [read, read, hlookup]
  cases a.lookup name with
  | some i =>
    simp only [hab.vars]
    exact Val.copy_agree hab _
  | none => exact ⟨hab.fail, fun he => absurd he (Bool.noConfusion : true ≠ false)⟩

theorem Prim.value_agree (hab : a.Alike b) (p : Prim) : Agree (p.value h a) (p.value h b) := by
  cases p with
  | number d => exact .same hab _
  | string q => exact hab.fresh rfl rfl rfl rfl
  | var n =>
    have hbuf : Env.Alike { a with identBuf := n.name } { b with identBuf := n.name } :=
      ⟨hab.vars, hab.varCount, hab.null, rfl, hab.hadError⟩
    exact Env.read_agree hbuf _
  | empty =>
    rw [value, value, hab.null]
    exact .same hab _

/-- Off the numbers the left operand has the common type. -/
theorem commonType_of_not_number {left right : MshType}
    (hi : commonType left right ≠ .int) (hf : commonType left right ≠ .float) :
    commonType left right = left ∧ right ≠ .int ∧ right ≠ .float := by
  revert hi hf
  cases left <;> cases right <;> decide

theorem Val.Alike.as (hl : l.Alike l') {c : MshType} (hc : c = .int ∨ c = .float) :
    l.as h c = l'.as h c := by
  unfold Val.as
  rw [← hl.type, ← hl.text]
  by_cases hs : l.var.type = .str
  · rw [hs]
    rcases hc with rfl | rfl <;> rfl
  · rw [← hl.val hs]

theorem Op.result_eq (o : Op) (hl : l.Alike l') (hr : r.Alike r') :
    o.result h l' r' = o.result h l r := by
  rw [result, result, ← hl.type, ← hr.type, ← hl.text, ← hr.text]
  cases hc : commonType l.var.type r.var.type with
  | int => rw [hl.as (Or.inl rfl), hr.as (Or.inl rfl)]
  | float => rw [hl.as (Or.inr rfl), hr.as (Or.inr rfl)]
  | _ => simp

theorem Op.common_of_text {o : Op} {bs : List Byte} (h' : o.result h l r = .text bs) :
    commonType l.var.type r.var.type = .str ∧ bs = l.text ++ r.text := by
  revert h'
  rw [result]
  cases commonType l.var.type r.var.type <;> simp <;> split_ifs <;> simp; exact Eq.symm

theorem Op.common_of_number {o : Op} {w : Word} (h' : o.result h l r = .number w) :
    commonType l.var.type r.var.type = .int ∨ commonType l.var.type r.var.type = .float := by
  revert h'
  rw [result]
  cases commonType l.var.type r.var.type <;> simp <;> split_ifs <;> simp

theorem Op.common_of_quotient {o : Op} {x y : Word} (h' : o.result h l r = .quotient x y) :
    commonType l.var.type r.var.type = .int := by
  revert h'
  rw [result]
  cases commonType l.var.type r.var.type <;> simp <;> split_ifs <;> simp

theorem Op.common_of_nothing {o : Op} (h' : o.result h l r = .nothing) :
    commonType l.var.type r.var.type = l.var.type := by
  refine (commonType_of_not_number (fun hc => ?_) fun hc => ?_).1
  all_goals
    rw [result, hc] at h'
    revert h'
    simp
    split_ifs <;> simp

@[simp] theorem Op.identBuf_apply (o : Op) (l r : Val) (a : Env) :
    (o.apply h l r a).2.identBuf = a.identBuf := by
  rw [apply]
  cases o.result h l r <;> rfl

theorem Op.apply_agree (o : Op) (hab : a.Alike b) (hl : l.Alike l') (hr : r.Alike r') :
    Agree (o.apply h l r a) (o.apply h l' r' b) := by
  rw [apply, apply, result_eq o hl hr, ← hl.type, ← hr.type]
  cases hres : o.result h l r with
  | number w => exact ⟨hab, fun _ => ⟨hl.name, rfl, fun _ => rfl, hl.text⟩⟩
  | quotient x y =>
    exact ⟨⟨hab.vars, hab.varCount, hab.null, hab.identBuf, hab.hadError⟩,
      fun _ => ⟨hl.name, rfl, fun _ => rfl, hl.text⟩⟩
  | text bs =>
    have hc := (common_of_text hres).1
    exact hab.fresh (v := { l.var with type := commonType l.var.type r.var.type })
      (w := { l'.var with type := commonType l.var.type r.var.type }) hl.name hc hc rfl
  | nothing =>
    refine ⟨hab, fun _ => ⟨hl.name, rfl, fun hne => hl.val fun hs => hne ?_, hl.text⟩⟩
    exact (common_of_nothing hres).trans hs
  | error => exact ⟨hab.fail, fun he => absurd he (Bool.noConfusion : true ≠ false)⟩

/-- Behind an error nothing is compared but the table. -/
theorem Op.apply_agree_of_error (o : Op) (hab : a.Alike b) (he : a.hadError = true) :
    Agree (o.apply h l r a) (o.apply h l' r' b) := by
  have ha := o.evolves_apply (h := h) l r a
  have hb := o.evolves_apply (h := h) l' r' b
  have hea := ha.hadError he
  have heb := hb.hadError (hab.hadError ▸ he)
  refine ⟨⟨?_, ?_, ?_, ?_, hea.trans heb.symm⟩, fun he' => ?_⟩
  · rw [ha.vars, hb.vars, hab.vars]
  · rw [ha.varCount, hb.varCount, hab.varCount]
  · rw [ha.null, hb.null, hab.null]
  · rw [identBuf_apply, identBuf_apply, hab.identBuf]
  · exact absurd (hea.symm.trans he') Bool.noConfusion

/-- **An expression has the same value again**, up to addresses and the first error — induction on
the expression. -/
theorem Expr.value_agree (e : Expr) {a b : Env} (hab : a.Alike b) :
    Agree (e.value h a) (e.value h b) := by
  induction e generalizing a b with
  | last _ p => exact p.value_agree hab
  | op _ p _ o e ih =>
    have hp := p.value_agree (h := h) hab
    have he := ih hp.env
    cases herr : (e.value h (p.value h a).2).2.hadError with
    | true => exact o.apply_agree_of_error he.env herr
    | false =>
      have hleft : (p.value h a).2.hadError = false := Bool.eq_false_iff.mpr fun hp' =>
        Bool.noConfusion (herr.symm.trans ((e.evolves_value _).hadError hp'))
      exact o.apply_agree he.env (hp.val hleft) (he.val herr)

end Alike

/-! ## Lines, run again -/

section Again

variable {h} {a : Env} {s : Assign} {last : Option Assign}

theorem Env.assigned_grows (v : Val) (a : Env) : a.Grows (a.assigned v) := by
  rw [assigned]
  split
  · exact .of_eq rfl rfl rfl
  · split <;> exact .of_eq rfl rfl rfl

/-- A store fails exactly if the name is unknown and the table full, and then stores nothing. -/
theorem Env.assigned_hadError (v : Val) (he : a.hadError = false) :
    (a.assigned v).hadError = decide (a.lookup a.identBuf = none ∧ 64 ≤ a.varCount) := by
  rw [assigned]
  cases hl : a.lookup a.identBuf with
  | some i => simpa using he
  | none =>
    by_cases hc : a.varCount < 64
    · simp [hc, he]
    · simp [hc, fail, Nat.not_lt.mp hc]

theorem Env.assigned_of_error {v : Val} (he : a.hadError = false)
    (he' : (a.assigned v).hadError = true) :
    (a.assigned v).vars = a.vars ∧ (a.assigned v).varCount = a.varCount := by
  rw [assigned_hadError v he, decide_eq_true_eq] at he'
  rw [assigned, he'.1]
  simp [Nat.not_lt.mpr he'.2, fail]

/-- The value an assignment stores, and what its evaluation leaves. -/
def Assign.rhs (h : Host) (s : Assign) (a : Env) : Val × Env :=
  s.expr.value h { a with identBuf := s.target.name }

theorem Assign.exec_eq (s : Assign) (a : Env) : s.exec h a =
    if (s.rhs h a).2.hadError then (s.rhs h a).2 else (s.rhs h a).2.assigned (s.rhs h a).1 := rfl

theorem Assign.evolves_rhs (s : Assign) (a : Env) : a.Evolves (s.rhs h a).2 :=
  (a.evolves_identBuf s.target.name).trans (s.expr.evolves_value _)

theorem Assign.rhs_grows (s : Assign) (a : Env) : (s.rhs h a).2.Grows (s.exec h a) := by
  rw [exec_eq]
  split
  · exact .refl _
  · exact Env.assigned_grows _ _

theorem Assign.exec_grows (s : Assign) (a : Env) : a.Grows (s.exec h a) :=
  (s.evolves_rhs a).toGrows.trans (s.rhs_grows a)

/-- Storing divides nothing. -/
theorem Assign.safe_exec (s : Assign) {a : Env} (hs : (s.rhs h a).2.Safe) :
    (s.exec h a).Safe := by
  have hstored (v : Val) (b : Env) : (b.assigned v).divisions = b.divisions := by
    rw [Env.assigned]
    split
    · rfl
    · split <;> rfl
  rw [exec_eq]
  split
  · exact hs
  · rw [Env.Safe, hstored]
    exact hs

/-- **An assignment that fails leaves the table as it was.** -/
theorem Assign.exec_of_error (he : (s.exec h a).hadError = true) :
    (s.exec h a).vars = a.vars ∧ (s.exec h a).varCount = a.varCount := by
  have hrhs := s.evolves_rhs (h := h) a
  rw [exec_eq] at he ⊢
  split at he
  case isTrue herr =>
    rw [if_pos herr]
    exact ⟨hrhs.vars, hrhs.varCount⟩
  case isFalse herr =>
    obtain ⟨hvars, hcount⟩ := Env.assigned_of_error (Bool.eq_false_iff.mpr herr) he
    rw [if_neg herr]
    exact ⟨hvars.trans hrhs.vars, hcount.trans hrhs.varCount⟩

theorem Env.run_singleton (s : Assign) (a : Env) : run h [s] a = s.exec h a := ite_self _

theorem Env.run_grows (ss : List Assign) (a : Env) : a.Grows (run h ss a) := by
  induction ss generalizing a with
  | nil => exact .refl a
  | cons s ss ih =>
    rw [run]
    split
    · exact s.exec_grows a
    · exact (s.exec_grows a).trans (ih _)

/-- **On the same table an assignment fails again if it has failed.** -/
theorem Assign.exec_hadError_eq (s : Assign) {a b : Env} (hvars : a.vars = b.vars)
    (hcount : a.varCount = b.varCount) (hnull : a.null = b.null)
    (herr : a.hadError = b.hadError) : (s.exec h a).hadError = (s.exec h b).hadError := by
  have hagree : Agree (s.rhs h a) (s.rhs h b) :=
    s.expr.value_agree ⟨hvars, hcount, hnull, rfl, herr⟩
  rw [exec_eq, exec_eq, ← hagree.env.hadError]
  cases he : (s.rhs h a).2.hadError with
  | true => rw [if_pos rfl, if_pos rfl, hagree.env.hadError]
  | false =>
    rw [if_neg Bool.false_ne_true, if_neg Bool.false_ne_true, Env.assigned_hadError _ he,
      Env.assigned_hadError _ (hagree.env.hadError ▸ he), Env.lookup, Env.lookup,
      hagree.env.vars, hagree.env.varCount, hagree.env.identBuf]

/-- **An assignment that has failed fails again.** -/
theorem Assign.exec_again (ha : a.hadError = false) (he : (s.exec h a).hadError = true) :
    (s.exec h { s.exec h a with hadError := false }).hadError = true := by
  obtain ⟨hvars, hcount⟩ := exec_of_error he
  rw [← he]
  exact s.exec_hadError_eq hvars hcount (s.exec_grows a).null ha.symm

theorem Env.clear_of_ok (ha : a.hadError = false) : { a with hadError := false } = a := by
  rw [← ha]

theorem Assign.exec_grows_again (s : Assign) (a : Env) :
    (s.exec h a).Grows (s.exec h { s.exec h a with hadError := false }) := by
  have hclear : (s.exec h a).Grows { s.exec h a with hadError := false } := .of_eq rfl rfl rfl
  exact hclear.trans (s.exec_grows _)

theorem Env.runEach_grows (last : Option Assign) (ss : List Assign) (a : Env) :
    a.Grows (runEach h ss last a) := by
  induction ss generalizing a with
  | nil => exact run_grows _ a
  | cons s ss ih =>
    rw [runEach]
    split
    · exact (s.exec_grows a).trans (s.exec_grows_again a)
    · exact (s.exec_grows a).trans (ih _)

theorem Env.exec_grows_runEach (last : Option Assign) (ss : List Assign) (s : Assign) (a : Env) :
    (s.exec h a).Grows (runEach h (s :: ss) last a) := by
  rw [runEach]
  split
  · exact s.exec_grows_again a
  · exact runEach_grows last ss _

/-- **Each for itself or all at once, the lines leave the same table and the same error**; only more
of the heap is used, and more divisions are made, if one of them is run twice — induction on the
lines. -/
theorem Env.runEach_run (last : Option Assign) (ss : List Assign) {a : Env}
    (ha : a.hadError = false) :
    (runEach h ss last a).vars = (run h (ss ++ last.toList) a).vars ∧
      (runEach h ss last a).varCount = (run h (ss ++ last.toList) a).varCount ∧
      (runEach h ss last a).hadError = (run h (ss ++ last.toList) a).hadError ∧
      (run h (ss ++ last.toList) a).Grows (runEach h ss last a) := by
  induction ss generalizing a with
  | nil => exact ⟨rfl, rfl, rfl, .refl _⟩
  | cons s ss ih =>
    rw [List.cons_append, run, runEach]
    cases he : (s.exec h a).hadError with
    | false =>
      simp only [Bool.false_eq_true, if_false]
      exact ih he
    | true =>
      simp only [if_true]
      obtain ⟨hvars, hcount⟩ := Assign.exec_of_error he
      have hagain := Assign.exec_again ha he
      obtain ⟨hvars', hcount'⟩ := Assign.exec_of_error hagain
      exact ⟨hvars', hcount', hagain.trans he.symm, s.exec_grows_again a⟩

end Again

end HuskyKernel
