import HuskyKernel.BuiltIn.Blocks
import HuskyKernel.BuiltIn.Conversions

/-!
# BuiltIn/Denote — the shell computes what programs mean

`Rep h s a`: the machine `s` has the table, the heap, the buffer and the error of `a`, and where `a`
has a text there lies that string, out of reach of what `malloc` is going to hand out.  As long as
the heap is not used up the evaluator then returns the value an expression has, or traps if it
divides -2³¹ by -1 (`denote_evalExpr`).
-/

namespace HuskyKernel

open Wp Scan Msh

/-- Unless `v` is a number, its text lies where it points to. -/
def Shows (h : Host) (m : Mem) (i : ℕ) (v : Val) : Prop :=
  v.var.type ≠ .int → v.var.type ≠ .float → Str h.heap m i v.var.val v.text

/-- The machine is in the state `a` describes. -/
structure Rep (h : Host) (s : Machine) (a : Env) : Prop where
  vars : ∀ i, s.vars i = (a.vars i).var
  varCount : s.varCount = a.varCount
  top : s.heapIndex.toNat = a.top
  hadError : s.hadError = a.hadError
  identBuf : s.identBuf = a.identBuf
  texts : ∀ i < a.varCount, Shows h s.mem a.top (a.vars i)
  null : Str h.heap s.mem a.top 0 a.null

/-- From `s`, evaluation has come to the value `v` in the state `t`. -/
structure Yields (h : Host) (s : Machine) (r : Val × Env) (v : MshVar) (t : Machine) : Prop where
  var : v = r.1.var
  shown : Shows h t.mem r.2.top r.1
  rep : Rep h t r.2
  fills : Fills h s t
  safe : r.2.Safe

/-- Evaluation has trapped, on one of the divisions of `a`. -/
def Trapped (a : Env) (e : Stop) : Prop := e = .divTrap ∧ ¬ a.Safe

variable {h : Host} {s t u : Machine} {a b : Env} {v w : MshVar} {text : List Byte} {l r : Val}

theorem Shows.grow {m m' : Mem} {i j : ℕ} {v : Val} (hv : Shows h m i v) (hij : i ≤ j)
    (hm : ∀ x, ¬ Free h.heap i x → m' x = m x) : Shows h m' j v := fun hi hf =>
  (hv hi hf).grow hij hm

theorem Rep.heapIndex (hr : Rep h s a) : s.heapIndex = BitVec.ofNat 32 a.top := by
  rw [← hr.top, BitVec.ofNat_toNat, BitVec.setWidth_eq]

/-- What else a machine has does not count. -/
theorem Rep.named {name : List Byte} (hr : Rep h s a) (hvars : t.vars = s.vars)
    (hcount : t.varCount = s.varCount) (hindex : t.heapIndex = s.heapIndex)
    (herr : t.hadError = s.hadError) (hbuf : t.identBuf = name) (hmem : t.mem = s.mem) :
    Rep h t { a with identBuf := name } where
  vars i := hvars ▸ hr.vars i
  varCount := hcount.trans hr.varCount
  top := hindex ▸ hr.top
  hadError := herr.trans hr.hadError
  identBuf := hbuf
  texts i hi := hmem ▸ hr.texts i hi
  null := hmem ▸ hr.null

theorem Rep.congr (hr : Rep h s a) (hvars : t.vars = s.vars) (hcount : t.varCount = s.varCount)
    (hindex : t.heapIndex = s.heapIndex) (herr : t.hadError = s.hadError)
    (hbuf : t.identBuf = s.identBuf) (hmem : t.mem = s.mem) : Rep h t a :=
  hr.named hvars hcount hindex herr (hbuf.trans hr.identBuf) hmem

/-- **A string in a new block** leaves everything else where it is. -/
theorem yields_fresh (hr : Rep h s a) (hsafe : a.Safe) (h0 : 0 ∉ text) (v : MshVar)
    (hfit : (a.fresh h v text).2.top ≤ heapSize.toNat) (hvars : t.vars = s.vars)
    (hcount : t.varCount = s.varCount) (herr : t.hadError = s.hadError)
    (hbuf : t.identBuf = s.identBuf)
    (hindex : t.heapIndex = s.heapIndex + BitVec.ofNat 32 (text.length + 1))
    (hmem : t.mem = s.mem.store (h.heap.base + s.heapIndex) (text ++ [0])) :
    Yields h s (a.fresh h v text) { v with val := h.heap.base + s.heapIndex } t := by
  have hsize : heapSize.toNat < 2 ^ 32 := heapSize.isLt
  have hblock := Env.top_fresh (h := h) hsafe v text
  have hlen : a.top + (text ++ [0]).length ≤ heapSize.toNat := by
    rwa [List.length_append, List.length_singleton, ← hblock]
  rw [hr.heapIndex] at hindex hmem ⊢
  have htop : t.heapIndex.toNat = (a.fresh h v text).2.top := by
    rw [hindex, hblock, BitVec.toNat_add, BitVec.toNat_ofNat, BitVec.toNat_ofNat]
    omega
  have hle : a.top ≤ (a.fresh h v text).2.top := hblock ▸ Nat.le_add_right _ _
  have hold : ∀ x, ¬ Free h.heap a.top x → t.mem x = s.mem x := fun x hx => by
    rw [hmem]
    exact store_of_not_free hlen hx
  refine ⟨rfl, fun _ _ => ?_, ⟨fun i => hvars ▸ hr.vars i, hcount.trans hr.varCount, htop,
    herr.trans hr.hadError, hbuf.trans hr.identBuf, fun i hi => (hr.texts i hi).grow hle hold,
    hr.null.grow hle hold⟩, ⟨by rwa [htop, hr.top], by rwa [hr.top]⟩, hsafe⟩
  rw [hmem, hblock]
  exact Str.store s.mem h0 (hblock ▸ hfit)

/-- A value that has been there before. -/
theorem Rep.yields (hr : Rep h s a) (hsafe : a.Safe) (hl : Shows h s.mem a.top l) :
    Yields h s (l, a) l.var s := ⟨rfl, hl, hr, .refl h s, hsafe⟩

theorem Rep.fail (hr : Rep h s a) : Rep h { s with hadError := true } a.fail :=
  ⟨hr.vars, hr.varCount, hr.top, rfl, hr.identBuf, hr.texts, hr.null⟩

theorem Rep.lookup (hr : Rep h s a) (name : List Byte) : s.lookup name = a.lookup name := by
  rw [Machine.lookup, Env.lookup, hr.varCount]
  simp only [hr.vars]

theorem Rep.room (hr : Rep h s a) {n : ℕ} (hfit : a.top + n ≤ heapSize.toNat) : s.Room n := by
  rw [Machine.Room, hr.top]
  exact hfit

/-! ## Operands -/

section Operands

variable {E : Stop → Machine → Prop} {zs : List Byte}

theorem denote_numberLiteral {d : Number} (hr : Rep h s a) (hsafe : a.Safe)
    (hrest : s.rest = d.text ++ zs) (hz : isdigit (zs.headD 0) = false) :
    wp numberLiteral (fun v t => Yields h s ((Prim.number d).value h a) v t ∧ t.rest = zs) E s := by
  have hds : scanned isdigit s.code s.pc = d.text := scanned_append hrest d.digits hz
  rw [numberLiteral, wp_bind, wp_scanCode, hds]
  exact ⟨⟨rfl, fun hne => absurd rfl hne, hr.congr rfl rfl rfl rfl rfl rfl,
    .of_eq rfl rfl, hsafe⟩, rest_scan hrest d.digits hz⟩

theorem denote_stringLiteral {q : Quoted} (hr : Rep h s a) (hsafe : a.Safe)
    (hrest : s.rest = chr '"' :: (q.text ++ chr '"' :: zs))
    (hfit : ((Prim.string q).value h a).2.top ≤ heapSize.toNat) :
    wp (stringLiteral h) (fun o t => ∃ v, o = .left v ∧
      Yields h s ((Prim.string q).value h a) v t ∧ t.rest = zs) E s := by
  have h0 : 0 ∉ q.text := fun hmem => absurd (q.chars 0 hmem) (by decide)
  have hroom := hr.room (Env.top_fresh hsafe { MshVar.zero with type := .str } q.text ▸ hfit)
  refine wp_mono (wp_stringLiteral_text hrest q.chars hroom) (fun o t ht => ?_) fun _ _ => id
  obtain ⟨rfl, ⟨pc, reach, rfl⟩, hzs⟩ := ht
  exact ⟨_, rfl, yields_fresh hr hsafe h0 _ hfit rfl rfl rfl rfl rfl rfl, hzs⟩

/-- `strdup` of a string is a copy of its value. -/
theorem denote_strdup (hr : Rep h s a) (hsafe : a.Safe) (hl : Shows h s.mem a.top l)
    (hstr : l.var.type = .str) (hfit : (l.copy h a).2.top ≤ heapSize.toNat) :
    wp (strdup h l.var) (fun p => Yields h s (l.copy h a) { l.var with val := p }) E s := by
  have hs := hl (by rw [hstr]; decide) (by rw [hstr]; decide)
  rw [Val.copy] at hfit ⊢
  by_cases h0 : l.var.val = 0
  · have hne : ¬ (l.var.type = .str ∧ l.var.val ≠ 0) := fun hand => hand.2 h0
    rw [strdup, wp_bind, wp_emit, if_pos h0, if_neg hne]
    refine ⟨?_, hl, hr.congr rfl rfl rfl rfl rfl rfl, .of_eq rfl rfl, hsafe⟩
    rw [← h0]
  · have hcopied : l.var.type = .str ∧ l.var.val ≠ 0 := ⟨hstr, h0⟩
    rw [if_pos hcopied] at hfit ⊢
    have hroom := hr.room (Env.top_fresh hsafe l.var l.text ▸ hfit)
    rw [wp_of_ok (strdup_eq (hr.top.symm ▸ hs) h0 hroom)]
    exact yields_fresh hr hsafe hs.zero_notMem _ hfit rfl rfl rfl rfl rfl rfl

theorem denote_variableRef {n : Ident} (hr : Rep h s a) (hsafe : a.Safe)
    (hrest : s.rest = n.text ++ zs) (hz : isIdent (zs.headD 0) = false)
    (hfit : ((Prim.var n).value h a).2.top ≤ heapSize.toNat) :
    wp (variableRef h) (fun v t => Yields h s ((Prim.var n).value h a) v t ∧ t.rest = zs) E s := by
  obtain ⟨hrest', hbuf⟩ := rest_parsed hrest hz
  have hrep : Rep h (parsed s) { a with identBuf := n.name } := hr.named rfl rfl rfl rfl hbuf rfl
  have hlookup {i : Option ℕ} (hl : s.lookup (parsed s).identBuf = i) :
      Env.lookup { a with identBuf := n.name } n.name = i := by
    rw [hbuf] at hl
    exact (hrep.lookup n.name).symm.trans hl
  have hshown {i : ℕ} (hl : s.lookup (parsed s).identBuf = some i) :=
    hrep.texts i (hrep.varCount ▸ (Machine.lookup_eq_some.mp hl).2.1)
  rw [Prim.value] at hfit ⊢
  refine wp_variableRef h (fun hl => ?_) (fun i hl hstr => ?_) fun i hl hne => ?_
  · rw [Env.read_none (hlookup hl)]
    exact ⟨⟨rfl, fun _ _ => hr.null, hrep.fail, .of_eq rfl rfl, hsafe⟩, hrest'⟩
  all_goals rw [Env.read_some (hlookup hl)] at hfit ⊢
  · rw [show s.vars i = _ from hrep.vars i] at hstr ⊢
    refine wp_mono (wp_and (denote_strdup hrep hsafe (hshown hl) hstr hfit) (quiet_strdup h _ _))
      (fun p t ht => ?_) fun _ _ he => he.1
    obtain ⟨⟨hvar, hshown, hrep', hfills, hs⟩, hquiet⟩ := ht
    exact ⟨⟨hvar, hshown, hrep', ⟨hfills.le, hfills.mem⟩, hs⟩, hquiet.rest.trans hrest'⟩
  · rw [show s.vars i = _ from hrep.vars i] at hne ⊢
    rw [Val.copy, if_neg fun hand => hne hand.1]
    exact ⟨⟨rfl, hshown hl, hrep, .of_eq rfl rfl, hsafe⟩, hrest'⟩

/-- **An operand has its value.** -/
theorem denote_evalOperand (eval : Msh MshVar) {b : Blanks} {p : Prim} (hr : Rep h s a)
    (hsafe : a.Safe) (hrest : s.rest = b.text ++ (p.text ++ zs)) (hp : p.Ends zs) (hne : p ≠ .empty)
    (hfit : (p.value h a).2.top ≤ heapSize.toNat) :
    wp (evalOperand h eval) (fun o t => ∃ v, o = .left v ∧ Yields h s (p.value h a) v t ∧
      t.rest = zs) E s := by
  have hskip : (skipped s).rest = p.text ++ zs :=
    rest_skipped_of_blanks hrest (isspace_headD_prim hp)
  have hrep : Rep h (skipped s) a := hr.congr rfl rfl rfl rfl rfl rfl
  have hback {v : MshVar} {t : Machine} (hy : Yields h (skipped s) (p.value h a) v t) :
      Yields h s (p.value h a) v t :=
    ⟨hy.var, hy.shown, hy.rep, ⟨hy.fills.le, hy.fills.mem⟩, hy.safe⟩
  refine wp_prim h hrest hp ?_ ?_ ?_ fun h0 => absurd h0 hne
  · rintro d rfl
    refine wp_mono (denote_numberLiteral hrep hsafe hskip hp) (fun v t ht => ?_) fun _ _ => id
    exact ⟨v, rfl, hback ht.1, ht.2⟩
  · rintro q rfl
    refine wp_mono (denote_stringLiteral hrep hsafe (rest_quoted hskip) hfit) (fun o t ht => ?_)
      fun _ _ => id
    obtain ⟨v, rfl, hy, hrest'⟩ := ht
    exact ⟨v, rfl, hback hy, hrest'⟩
  · rintro n rfl
    refine wp_mono (denote_variableRef hrep hsafe hskip hp hfit) (fun v t ht => ?_) fun _ _ => id
    exact ⟨v, rfl, hback ht.1, ht.2⟩

end Operands

/-! ## Operators -/

section Operators

theorem Shows.readable {m : Mem} {i : ℕ} (hl : Shows h m i l) : Readable m l.var := fun hstr =>
  Option.isSome_iff_exists.mpr
    ⟨l.text, (hl (by rw [hstr]; decide) (by rw [hstr]; decide)).text⟩

/-- Of what is shown only the text of a string counts. -/
theorem Shows.as_read {m : Mem} {i : ℕ} (hl : Shows h m i l) (target : MshType) :
    (l.var.read m).as h target = l.as h target := by
  unfold Val.as MshVar.read
  cases hty : l.var.type
  case str =>
    have htext := (hl (by rw [hty]; decide) (by rw [hty]; decide)).text
    simp only [htext, Option.getD_some]
  all_goals cases target <;> rfl

/-- **Operands that are shown are unified.** -/
theorem denote_unify {i : ℕ} (hl : Shows h s.mem i l) (hr : Shows h s.mem i r) :
    wp (unify h l.var r.var) (fun p t => Unified h l r p.1 p.2.1 p.2.2 ∧
      ∃ log, t = { s with log := log }) (fun _ _ => False) s := by
  refine wp_mono wp_unify (fun p t hu => ?_) fun e t hstop =>
    hstop.1.2.2 ⟨hl.readable, hr.readable⟩
  obtain ⟨hu, ht⟩ := hu
  refine ⟨⟨hu.common, fun hnumber => ?_, hu.other⟩, _, ht⟩
  rw [← hl.as_read, ← hr.as_read]
  exact hu.number hnumber

/-- **`concat` makes the text of both.** -/
theorem denote_concat {E : Stop → Machine → Prop} (hr : Rep h s a) (hsafe : a.Safe)
    (hl : Str h.heap s.mem a.top l.var.val l.text) (hr' : Str h.heap s.mem a.top r.var.val r.text)
    (v : MshVar) (hfit : (a.fresh h v (l.text ++ r.text)).2.top ≤ heapSize.toNat) :
    wp (concat h l.var r.var) (fun p =>
      Yields h s (a.fresh h v (l.text ++ r.text)) { v with val := p }) E s := by
  have h0 : 0 ∉ l.text ++ r.text := fun hmem => (List.mem_append.mp hmem).elim hl.zero_notMem
    hr'.zero_notMem
  have hroom := hr.room (Env.top_fresh hsafe v (l.text ++ r.text) ▸ hfit)
  rw [wp_of_ok (concat_eq (hr.top.symm ▸ hl) (hr.top.symm ▸ hr') hroom)]
  exact yields_fresh hr hsafe h0 v hfit rfl rfl rfl rfl rfl rfl

/-- The processor traps on `-2³¹ / -1`. -/
theorem wp_idiv {Q : Word → Machine → Prop} {E : Stop → Machine → Prop} (x y : Word) :
    wp (idiv x y) Q E s ↔ ((x, y) = (BitVec.intMin 32, -1) → E .divTrap s) ∧
      ((x, y) ≠ (BitVec.intMin 32, -1) → Q (x.sdiv y) s) := by
  rw [idiv, wp_ite, Ne, Prod.mk.injEq]
  exact Iff.rfl

/-- A division of `int`s has its quotient, or traps. -/
theorem denote_idiv (hr : Rep h s a) (hsafe : a.Safe) (v : MshVar) (hv : v.type = .int)
    (text : List Byte) (x y : Word) :
    wp (do return { v with val := ← idiv x y }) (Yields h s
        (⟨{ v with val := x.sdiv y }, text⟩, { a with divisions := (x, y) :: a.divisions }))
      (fun e _ => Trapped { a with divisions := (x, y) :: a.divisions } e) s := by
  rw [wp_bind, wp_idiv]
  refine ⟨fun htrap => ⟨rfl, fun hall => hall _ List.mem_cons_self htrap⟩, fun htrap => ?_⟩
  · have hrep : Rep h s { a with divisions := (x, y) :: a.divisions } :=
      ⟨hr.vars, hr.varCount, hr.top, hr.hadError, hr.identBuf, hr.texts, hr.null⟩
    refine hrep.yields (List.forall_mem_cons.mpr ⟨htrap, hsafe⟩) fun hne => ?_
    exact absurd hv hne

/-- What the evaluator does for each result of an operation. -/
def perform (h : Host) (left right result : MshVar) : OpResult → Msh MshVar
  | .number w => return { result with val := w }
  | .quotient x y => return { result with val := ← idiv x y }
  | .text _ => return { result with val := ← concat h left right }
  | .nothing => return result
  | .error => do
    raise
    return result

theorem applyOp_eq (o : Op) {c : MshType} {x y : MshVar} (hxy : Unified h l r c x y)
    (result : MshVar) :
    applyOp h o.byte result c x y = perform h l.var r.var result (o.result h l r) := by
  obtain ⟨rfl, hnumber, hother⟩ := hxy
  unfold applyOp
  rw [Op.result]
  cases hc : commonType l.var.type r.var.type
  case int =>
    obtain ⟨hx, hy⟩ := hnumber (Or.inl hc)
    rw [hc] at hx hy
    simp only [← hx, ← hy]
    split_ifs <;> rfl
  case float =>
    obtain ⟨hx, hy⟩ := hnumber (Or.inr hc)
    rw [hc] at hx hy
    simp only [← hx, ← hy]
    split_ifs <;> rfl
  all_goals
    obtain ⟨rfl, rfl⟩ := hother (by rw [hc]; decide) (by rw [hc]; decide)
    simp only [reduceCtorEq, false_and, if_false]
    split_ifs <;> rfl

/-- **An operation has its value**, or traps. -/
theorem denote_applyOp (o : Op) {c : MshType} {x y : MshVar} (hr : Rep h s a) (hsafe : a.Safe)
    (hl : Shows h s.mem a.top l) (hr' : Shows h s.mem a.top r) (hxy : Unified h l r c x y)
    (hfit : (o.apply h l r a).2.top ≤ heapSize.toNat) :
    wp (applyOp h o.byte { l.var with type := c } c x y) (Yields h s (o.apply h l r a))
      (fun e _ => Trapped (o.apply h l r a).2 e) s := by
  rw [applyOp_eq o hxy, hxy.common]
  rw [Op.apply] at hfit ⊢
  cases hres : o.result h l r with
  | number w =>
    have hc := Op.common_of_number hres
    exact hr.yields hsafe fun hi hf => absurd hc (not_or.mpr ⟨hi, hf⟩)
  | quotient x y =>
    exact denote_idiv hr hsafe _ (Op.common_of_quotient hres) l.text x y
  | text bs =>
    obtain ⟨hc, rfl⟩ := Op.common_of_text hres
    have hnone : commonType l.var.type r.var.type = l.var.type ∧ r.var.type ≠ .int ∧
        r.var.type ≠ .float :=
      commonType_of_not_number (by rw [hc]; decide) (by rw [hc]; decide)
    have hstr := hl (by rw [← hnone.1, hc]; decide) (by rw [← hnone.1, hc]; decide)
    rw [hres] at hfit
    exact wp_bind.mpr (denote_concat hr hsafe hstr (hr' hnone.2.1 hnone.2.2)
      { l.var with type := commonType l.var.type r.var.type } hfit)
  | nothing =>
    refine hr.yields hsafe ?_
    rw [Op.common_of_nothing hres]
    exact hl
  | error =>
    refine wp_bind.mpr (wp_raise.mpr ⟨rfl, fun hi hf => ?_, hr.fail, ?_, hsafe⟩)
    · have hleft := (commonType_of_not_number hi hf).1
      exact hl (hleft ▸ hi) (hleft ▸ hf)
    · exact .of_eq rfl rfl

end Operators

/-! ## Expressions -/

section Expressions

variable {zs tail : List Byte} {s₀ : Machine}

theorem Trapped.grows {x : Stop} (ht : Trapped a x) (hab : a.Grows b) : Trapped b x :=
  ⟨ht.1, fun hb => ht.2 (hab.safe hb)⟩

/-- What else the machines have does not count. -/
theorem Yields.congr {p : Val × Env} (hy : Yields h s p v t) (hvars : u.vars = t.vars)
    (hcount : u.varCount = t.varCount) (hindex : u.heapIndex = t.heapIndex)
    (herr : u.hadError = t.hadError) (hbuf : u.identBuf = t.identBuf) (hmem : u.mem = t.mem) :
    Yields h s p v u :=
  ⟨hy.var, hmem ▸ hy.shown, hy.rep.congr hvars hcount hindex herr hbuf hmem,
    ⟨hindex ▸ hy.fills.le, hmem ▸ hy.fills.mem⟩, hy.safe⟩

/-- One value after another: the first is there still. -/
theorem Yields.kept {p : Val × Env} (hs : Yields h s₀ (l, a) v s) (ht : Yields h s p w t)
    (hap : a.top ≤ p.2.top) : Shows h t.mem p.2.top l := by
  refine hs.shown.grow hap fun x hx => ht.fills.mem x ?_
  rw [hs.rep.top]
  exact hx

theorem Yields.trans {p q : Val × Env} (hs : Yields h s₀ p v s) (ht : Yields h s q w t) :
    Yields h s₀ q w t := ⟨ht.var, ht.shown, ht.rep, hs.fills.trans ht.fills, ht.safe⟩

/-- Nothing but an operator changes the value. -/
theorem denote_evalTail_last {E : Stop → Machine → Prop} {p : Val × Env} (eval : Msh MshVar)
    (hs : Yields h s₀ p v s) (hr : s.rest = zs)
    (ho : isOp ((zs.dropWhile isspace).headD 0) = false) :
    wp (evalTail h eval v) (Yields h s₀ p) E s := by
  have hrest : (skipped s).rest = zs.dropWhile isspace := by rw [rest_skipped, hr]
  rw [evalTail, wp_bind, wp_skipWhitespace, wp_bind, wp_peek, seen_skipped,
    if_neg (by rw [cur_eq hrest]; exact Bool.eq_false_iff.mp ho)]
  exact hs.congr rfl rfl rfl rfl rfl rfl

/-- Behind an operator is the right operand, and then the operation is made. -/
theorem denote_evalTail_op {eval : Msh MshVar} {b : Blanks} {o : Op} {e : Expr} {ys : List Byte}
    (hs : Yields h s₀ (l, a) v s) (hr : s.rest = b.text ++ o.byte :: ys)
    (hev : ∀ t, Rep h t a → t.rest = ys → wp eval (Yields h t (e.value h a))
      (fun x _ => Trapped (e.value h a).2 x) t)
    (hfit : (o.apply h l (e.value h a).1 (e.value h a).2).2.top ≤ heapSize.toNat) :
    wp (evalTail h eval v) (Yields h s₀ (o.apply h l (e.value h a).1 (e.value h a).2))
      (fun x _ => Trapped (o.apply h l (e.value h a).1 (e.value h a).2).2 x) s := by
  have hrest := rest_skipped_of_blanks hr (isspace_of_isOp o.isOp)
  have hcur : (skipped s).cur = o.byte := cur_eq hrest
  have hmoved : Yields h s₀ (l, a) v { skipped s with pc := (skipped s).pc + 1 } :=
    hs.congr rfl rfl rfl rfl rfl rfl
  have hevolves := (o.evolves_apply (h := h) l (e.value h a).1 (e.value h a).2).toGrows
  rw [evalTail, wp_bind, wp_skipWhitespace, wp_bind, wp_peek, seen_skipped,
    if_pos (by rw [hcur]; exact o.isOp), wp_bind, wp_advance, wp_bind, hcur]
  refine wp_mono (hev _ hmoved.rep (rest_advance hrest)) (fun right t hy => wp_bind.mpr ?_)
    fun x _ htrap => htrap.grows hevolves
  have hleft := hmoved.kept hy (e.evolves_value a).top
  obtain rfl := hs.var
  obtain rfl := hy.var
  refine wp_mono (denote_unify hleft hy.shown) (fun p u hu => ?_) fun _ _ => False.elim
  obtain ⟨hxy, log, rfl⟩ := hu
  have hlogged := hy.congr (u := { t with log := log }) rfl rfl rfl rfl rfl rfl
  have happly := denote_applyOp o hlogged.rep hlogged.safe hleft hlogged.shown hxy hfit
  exact wp_mono happly (fun w u hw => hmoved.trans (hlogged.trans hw)) fun _ _ => id

/-- **An expression has its value**, or traps — induction on the expression. -/
theorem denote_evalExprN (e : Expr) {n : ℕ} {s : Machine} {a : Env} (hr : Rep h s a)
    (hsafe : a.Safe) (hrest : s.rest = e.text ++ tail) (hc : e.Complete) (he : e.Ends tail)
    (hn : e.text.length < n) (hfit : (e.value h a).2.top ≤ heapSize.toNat) :
    wp (evalExprN h n) (Yields h s (e.value h a)) (fun x _ => Trapped (e.value h a).2 x) s := by
  induction e generalizing n s a with
  | last b p =>
    obtain ⟨n, rfl⟩ : ∃ m, n = m + 1 := ⟨n - 1, by omega⟩
    rw [Expr.text, List.append_assoc] at hrest
    rw [evalExprN]
    refine wp_bind.mpr (wp_mono (denote_evalOperand _ hr hsafe hrest he.1 hc hfit) ?_
      fun _ _ => id)
    rintro _ t ⟨v, rfl, hy, hrest'⟩
    exact denote_evalTail_last _ hy hrest' he.2
  | op b p b' o e ih =>
    obtain ⟨n, rfl⟩ : ∃ m, n = m + 1 := ⟨n - 1, by omega⟩
    have hlen : e.text.length < n := by
      simp only [Expr.text, List.length_append, List.length_cons] at hn
      omega
    have hends : p.Ends (b'.text ++ o.byte :: (e.text ++ tail)) :=
      he.1.congr (by cases b'.text <;> rfl)
    have hrest' : s.rest = b.text ++ (p.text ++ (b'.text ++ o.byte :: (e.text ++ tail))) := by
      rw [hrest, Expr.text]
      simp only [List.append_assoc, List.cons_append]
    have hgrows := (o.evolves_apply (h := h) (p.value h a).1 (e.value h (p.value h a).2).1
      (e.value h (p.value h a).2).2).toGrows
    have hright : (e.value h (p.value h a).2).2.top ≤ heapSize.toNat := hgrows.top.trans hfit
    have hleft := (e.evolves_value (h := h) (p.value h a).2).top.trans hright
    rw [evalExprN]
    refine wp_bind.mpr (wp_mono (denote_evalOperand _ hr hsafe hrest' hends hc.1 hleft) ?_
      fun _ _ => id)
    rintro _ t ⟨v, rfl, hy, hrest''⟩
    exact denote_evalTail_op hy hrest'' (fun u hu hus => ih hu hy.safe hus hc.2 he.2 hlen hright)
      hfit

/-- **`eval_expr` returns the value of the expression in front of the cursor**, or traps. -/
theorem denote_evalExpr {e : Expr} (hr : Rep h s a) (hsafe : a.Safe)
    (hrest : s.rest = e.text ++ tail) (hc : e.Complete) (he : e.Ends tail)
    (hfit : (e.value h a).2.top ≤ heapSize.toNat) :
    wp (evalExpr h) (Yields h s (e.value h a)) (fun x _ => Trapped (e.value h a).2 x) s := by
  refine denote_evalExprN e hr hsafe hrest hc he (Nat.lt_succ_of_le ?_) hfit
  have hlen := congrArg List.length hrest
  rw [Machine.rest, List.length_drop, List.length_append] at hlen
  omega

end Expressions

end HuskyKernel
