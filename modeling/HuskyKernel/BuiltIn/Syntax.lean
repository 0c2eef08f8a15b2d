import HuskyKernel.BuiltIn.Names

/-!
# BuiltIn/Syntax — expressions as they are written

The concrete syntax `eval_expr` reads: operands and operators with the blanks between them.  What it
reads is right-nested, and an operand may be missing (`- 5`), in which case it has type NONE.
`evalExpr_text` runs the evaluator over the text of an expression: it stops right behind it, and
leaves the last identifier mentioned (`Expr.lastIdent`) in `parse_ident`'s buffer.
-/

namespace HuskyKernel

open Wp Scan Msh

/-! ## The words of the language -/

/-- White space. -/
structure Blanks where
  text : List Byte
  blank : ∀ c ∈ text, isspace c = true

def Blanks.none : Blanks := ⟨[], List.all_eq_true.mp rfl⟩

def Blanks.one : Blanks := ⟨[chr ' '], List.all_eq_true.mp rfl⟩

/-- An identifier, of any length. -/
structure Ident where
  text : List Byte
  letter : isalpha (text.headD 0) = true
  chars : ∀ c ∈ text, isIdent c = true

/-- What `parse_ident` makes of it. -/
def Ident.name (n : Ident) : List Byte := n.text.take 31

/-- No NUL is in it. -/
theorem Ident.cstr_name (n : Ident) : cstr n.name = n.name :=
  List.takeWhile_eq_self_iff.mpr fun c hc => decide_eq_true fun h0 => by
    have := n.chars c (List.mem_of_mem_take hc)
    rw [h0] at this
    cases this

/-- An integer literal. -/
structure Number where
  text : List Byte
  digit : isdigit (text.headD 0) = true
  digits : ∀ c ∈ text, isdigit c = true

/-- The inside of a string literal. -/
structure Quoted where
  text : List Byte
  chars : ∀ c ∈ text, inString c = true

/-- An operator. -/
structure Op where
  byte : Byte
  isOp : isOp byte = true

/-- An operand. -/
inductive Prim where
  | number (d : Number)
  | string (q : Quoted)
  | var (n : Ident)
  | empty

def Prim.text : Prim → List Byte
  | number d => d.text
  | string q => chr '"' :: (q.text ++ [chr '"'])
  | var n => n.text
  | empty => []

/-- The name an operand leaves in the buffer. -/
def Prim.ident : Prim → Option (List Byte)
  | var n => some n.name
  | _ => none

/-- `zs` does not go on with the operand in front of it. -/
def Prim.Ends (zs : List Byte) : Prim → Prop
  | number _ => isdigit (zs.headD 0) = false
  | string _ => True
  | var _ => isIdent (zs.headD 0) = false
  | empty => isspace (zs.headD 0) = false ∧ isdigit (zs.headD 0) = false ∧
      zs.headD 0 ≠ chr '"' ∧ isalpha (zs.headD 0) = false

/-- Whether it does is up to its first character. -/
theorem Prim.Ends.congr {p : Prim} {ys zs : List Byte} (hp : p.Ends ys)
    (h : zs.headD 0 = ys.headD 0) : p.Ends zs := by
  cases p <;> simp only [Prim.Ends, h] <;> exact hp

/-! ## Expressions -/

/-- An expression, with the blanks in front of its operands and operators. -/
inductive Expr where
  | last (b : Blanks) (p : Prim)
  | op (b : Blanks) (p : Prim) (b' : Blanks) (o : Op) (e : Expr)

namespace Expr

def text : Expr → List Byte
  | last b p => b.text ++ p.text
  | op b p b' o e => b.text ++ (p.text ++ (b'.text ++ o.byte :: e.text))

/-- The last identifier mentioned, cut to 31 characters. -/
def lastIdent : Expr → Option (List Byte)
  | last _ p => p.ident
  | op _ p _ _ e => e.lastIdent.or p.ident

theorem cstr_lastIdent (e : Expr) : ∀ m ∈ e.lastIdent, cstr m = m := by
  have hprim (p : Prim) : ∀ m ∈ p.ident, cstr m = m := by
    cases p with
    | var n =>
      intro m hm
      rw [← Option.some.inj hm, n.cstr_name]
    | _ => exact fun _ hm => absurd hm (Option.not_mem_none _)
  induction e with
  | last _ p => exact hprim p
  | op _ p _ _ e ih =>
    intro m hm
    rw [Option.mem_def, lastIdent, Option.or_eq_some_iff] at hm
    exact hm.elim (ih m) fun hm => hprim p m hm.2

/-- `tail` does not go on with the expression in front of it. -/
def Ends (tail : List Byte) : Expr → Prop
  | last _ p => p.Ends tail ∧ Msh.isOp ((tail.dropWhile isspace).headD 0) = false
  | op _ p b' o e => p.Ends (b'.text ++ [o.byte]) ∧ e.Ends tail

end Expr

namespace Msh

variable (h : Host) {s t u : Machine} {xs ys zs : List Byte}

/-! ## The cursor in a known text -/

theorem cur_eq (hr : s.rest = ys) : s.cur = ys.headD 0 := by rw [← headD_rest, hr]

theorem rest_advance {c : Byte} (hr : s.rest = c :: ys) :
    Machine.rest { s with pc := s.pc + 1 } = ys := by
  rw [Machine.rest, ← List.drop_drop, show s.code.drop s.pc = c :: ys from hr]
  rfl

theorem rest_scan {p : Byte → Bool} (hr : s.rest = xs ++ ys) (hxs : ∀ c ∈ xs, p c = true)
    (hys : p (ys.headD 0) = false) : s.code.drop (scan p s.code s.pc) = ys := by
  rw [scan_append hr hxs hys, ← List.drop_drop, show s.code.drop s.pc = xs ++ ys from hr,
    List.drop_left]

/-- `skip_whitespace` drops the blanks. -/
theorem rest_skipped (s : Machine) : (skipped s).rest = s.rest.dropWhile isspace := drop_scan

theorem rest_skipped_of_blanks {b : Blanks} (hr : s.rest = b.text ++ ys)
    (hys : isspace (ys.headD 0) = false) : (skipped s).rest = ys := rest_scan hr b.blank hys

/-! ## Reading an operand -/

/-- From `s` to `t` a text has been evaluated: `ys` is left of the program, the last identifier in
it is in the buffer, and unless there was an error it is in the table. -/
structure After (s : Machine) (id : Option (List Byte)) (ys : List Byte) (t : Machine) : Prop where
  rest : t.rest = ys
  ident : t.identBuf = id.getD s.identBuf
  found : t.hadError = false → ∀ m ∈ id, s.lookup m ≠ none

theorem After.quiet {id : Option (List Byte)} (ha : After s id ys t) (hq : Quiet t u) :
    After s id ys u :=
  ⟨hq.rest.trans ha.rest, hq.identBuf.trans ha.ident, fun he =>
    ha.found (Bool.eq_false_iff.mpr fun he' => Bool.noConfusion (he.symm.trans (hq.err he')))⟩

theorem lookup_eq_of_frame (hf : Frame s t) (m : List Byte) : t.lookup m = s.lookup m := by
  rw [Machine.lookup, hf.vars, hf.varCount, Machine.lookup]

/-- Two texts, one behind the other. -/
theorem After.trans {id id' : Option (List Byte)} (ha : After s id ys t) (hf : Frame s t)
    (hf' : Frame t u) (ha' : After t id' zs u) : After s (id'.or id) zs u := by
  refine ⟨ha'.rest, ?_, fun he m hm => ?_⟩
  · rw [ha'.ident, ha.ident]
    cases id' <;> rfl
  · have het : t.hadError = false :=
      Bool.eq_false_iff.mpr fun he' => Bool.noConfusion (he.symm.trans (hf'.err he'))
    cases id' with
    | none => exact ha.found het m hm
    | some m' =>
      rw [← lookup_eq_of_frame hf]
      exact ha'.found he m hm

theorem after_numberLiteral {d : Number} (hr : s.rest = d.text ++ zs)
    (hz : isdigit (zs.headD 0) = false) :
    wp numberLiteral (fun _ t => After s none zs t) (fun _ _ => True) s :=
  ⟨rest_scan hr d.digits hz, rfl, fun _ _ hm => absurd hm (Option.not_mem_none _)⟩

theorem after_stringLiteral {q : Quoted} (hr : s.rest = chr '"' :: (q.text ++ chr '"' :: zs)) :
    wp (stringLiteral h) (fun o t => (∃ v, o = .left v) ∧ After s none zs t)
      (fun _ _ => True) s := by
  have hopen := rest_advance hr
  have hclose : s.code.drop (scan inString s.code (s.pc + 1)) = chr '"' :: zs :=
    rest_scan hopen q.chars rfl
  have hcur : s.code.getD (scan inString s.code (s.pc + 1)) 0 = chr '"' := by
    rw [← headD_drop, hclose, List.headD_cons]
  rw [stringLiteral, wp_bind, wp_advance, wp_bind, wp_get, wp_bind, wp_scanCode, wp_bind, wp_peek,
    wp_ite]
  refine ⟨fun hne => absurd hcur hne, fun _ => wp_bind.mpr ?_⟩
  refine wp_mono (quiet_copyLiteral h _ _) (fun p t hq => ?_) fun _ _ _ => trivial
  refine ⟨⟨_, rfl⟩, rest_advance (hq.rest.trans hclose), hq.identBuf, fun _ _ hm => ?_⟩
  exact absurd hm (Option.not_mem_none _)

/-- A word starts with its own first character, whatever is behind. -/
theorem headD_append {p : Byte → Bool} (h0 : p 0 = false) (hx : p (xs.headD 0) = true) :
    (xs ++ ys).headD 0 = xs.headD 0 := by
  cases xs with
  | nil => exact absurd (h0.symm.trans hx) Bool.noConfusion
  | cons x xs => rfl

theorem rest_parsed {n : Ident} (hr : s.rest = n.text ++ zs) (hz : isIdent (zs.headD 0) = false) :
    (parsed s).rest = zs ∧ (parsed s).identBuf = n.name := by
  have ha : isalpha s.cur = true := by
    rw [cur_eq hr, headD_append isalpha_zero n.letter]
    exact n.letter
  have hpc := skipped_of_isalpha ha
  have hscan : s.code.drop (scan isIdent s.code s.pc) = zs := rest_scan hr n.chars hz
  have hname : scanned isIdent s.code s.pc = n.text := scanned_append hr n.chars hz
  constructor
  · change s.code.drop (scan isIdent s.code (skipped s).pc) = zs
    rw [hpc, hscan]
  · change (scanned isIdent s.code (skipped s).pc).take 31 = _
    rw [hpc, hname]
    rfl

theorem after_variableRef {n : Ident} (hr : s.rest = n.text ++ zs)
    (hz : isIdent (zs.headD 0) = false) :
    wp (variableRef h) (fun _ t => After s (some n.name) zs t) (fun _ _ => True) s := by
  obtain ⟨hrest, hbuf⟩ := rest_parsed hr hz
  have hfound {i : ℕ} (hl : s.lookup (parsed s).identBuf = some i) :
      After s (some n.name) zs (parsed s) := by
    refine ⟨hrest, hbuf, fun _ m hm => ?_⟩
    obtain rfl : n.name = m := Option.some.inj hm
    rw [hbuf] at hl
    exact fun h0 => Option.some_ne_none i (hl.symm.trans h0)
  refine wp_variableRef h (fun _ => ⟨hrest, hbuf, Bool.noConfusion⟩) (fun i hl _ => ?_)
    fun i hl _ => hfound hl
  exact wp_mono (quiet_strdup h _ _) (fun _ _ => (hfound hl).quiet) fun _ _ _ => trivial

/-- An operand starts with no blank. -/
theorem isspace_headD_prim {p : Prim} (hp : p.Ends zs) :
    isspace ((p.text ++ zs).headD 0) = false := by
  cases p with
  | number d =>
    rw [Prim.text, headD_append isdigit_zero d.digit]
    exact Bool.eq_false_iff.mpr fun hs =>
      Bool.noConfusion (d.digit.symm.trans (isdigit_of_isspace hs))
  | string q => rfl
  | var n =>
    rw [Prim.text, headD_append isalpha_zero n.letter]
    exact Bool.eq_false_iff.mpr fun hs =>
      Bool.noConfusion (n.letter.symm.trans (isalpha_of_isspace hs))
  | empty => exact hp.1

/-- **Reading an operand that is written, case by case.** -/
theorem wp_prim {eval : Msh MshVar} {b : Blanks} {p : Prim} {Q : Operand → Machine → Prop}
    {E : Stop → Machine → Prop} (hr : s.rest = b.text ++ (p.text ++ zs)) (hp : p.Ends zs)
    (hnumber : ∀ d, p = .number d → wp numberLiteral (fun v => Q (.left v)) E (skipped s))
    (hstring : ∀ q, p = .string q → wp (stringLiteral h) Q E (skipped s))
    (hvar : ∀ n, p = .var n → wp (variableRef h) (fun v => Q (.left v)) E (skipped s))
    (hempty : p = .empty → Q (.left MshVar.zero) (skipped s)) : wp (evalOperand h eval) Q E s := by
  have hcur := cur_eq (rest_skipped_of_blanks hr (isspace_headD_prim hp))
  rw [evalOperand, wp_bind, wp_skipWhitespace, wp_bind, wp_peek, seen_skipped]
  cases p with
  | number d =>
    rw [if_pos (by rw [hcur, Prim.text, headD_append isdigit_zero d.digit]; exact d.digit)]
    exact wp_bind.mpr (hnumber d rfl)
  | string q =>
    have hq : (skipped s).cur = chr '"' := hcur
    rw [if_neg (by rw [hq]; decide), if_pos hq]
    exact hstring q rfl
  | var n =>
    have ha : isalpha (skipped s).cur = true := by
      rw [hcur, Prim.text, headD_append isalpha_zero n.letter]
      exact n.letter
    have hq : (skipped s).cur ≠ chr '"' := fun h0 => by rw [h0] at ha; cases ha
    rw [if_neg (by rw [isdigit_of_isalpha ha]; exact Bool.false_ne_true), if_neg hq, if_pos ha]
    exact wp_bind.mpr (hvar n rfl)
  | empty =>
    obtain ⟨_, hd, hq, ha⟩ := hp
    rw [if_neg (by rw [hcur]; exact Bool.eq_false_iff.mp hd), if_neg (by rw [hcur]; exact hq),
      if_neg (by rw [hcur]; exact Bool.eq_false_iff.mp ha)]
    exact (wp_of_ok (builtinWord_eq h eval (by rw [hcur]; exact ha))).mpr (hempty rfl)

/-- A string literal, as it is read. -/
theorem rest_quoted {q : Quoted} (hr : s.rest = (Prim.string q).text ++ zs) :
    s.rest = chr '"' :: (q.text ++ chr '"' :: zs) := by
  rw [hr, Prim.text, List.cons_append, List.append_assoc]
  rfl

/-- **An operand is read to its end.** -/
theorem after_evalOperand (eval : Msh MshVar) {b : Blanks} {p : Prim}
    (hr : s.rest = b.text ++ (p.text ++ zs)) (hp : p.Ends zs) :
    wp (evalOperand h eval) (fun o t => (∃ v, o = .left v) ∧ After s p.ident zs t)
      (fun _ _ => True) s := by
  have hrest : (skipped s).rest = p.text ++ zs := rest_skipped_of_blanks hr (isspace_headD_prim hp)
  have hback {id : Option (List Byte)} {t : Machine} (ha : After (skipped s) id zs t) :
      After s id zs t := ⟨ha.rest, ha.ident, ha.found⟩
  refine wp_prim h hr hp ?_ ?_ ?_ ?_
  · rintro d rfl
    exact wp_mono (after_numberLiteral hrest hp) (fun v _ ha => ⟨⟨v, rfl⟩, hback ha⟩) fun _ _ => id
  · rintro q rfl
    exact wp_mono (after_stringLiteral h (rest_quoted hrest)) (fun _ _ ha => ⟨ha.1, hback ha.2⟩)
      fun _ _ => id
  · rintro n rfl
    exact wp_mono (after_variableRef h hrest hp) (fun v _ ha => ⟨⟨v, rfl⟩, hback ha⟩) fun _ _ => id
  · rintro rfl
    exact ⟨⟨_, rfl⟩, hback ⟨hrest, rfl, fun _ _ hm => absurd hm (Option.not_mem_none _)⟩⟩

/-! ## Reading an expression -/

/-- The operators are four characters. -/
theorem isOp_cases {c : Byte} (hc : isOp c = true) :
    c = chr '+' ∨ c = chr '-' ∨ c = chr '*' ∨ c = chr '/' := by
  simpa only [isOp, Bool.or_eq_true, decide_eq_true_eq, or_assoc] using hc

theorem isspace_of_isOp {c : Byte} (hc : isOp c = true) : isspace c = false := by
  obtain rfl | rfl | rfl | rfl := isOp_cases hc <;> decide

theorem isIdent_of_isOp {c : Byte} (hc : isOp c = true) : isIdent c = false := by
  obtain rfl | rfl | rfl | rfl := isOp_cases hc <;> decide

/-- Nothing but an operator makes the evaluator go on. -/
theorem after_evalTail_last (eval : Msh MshVar) (left : MshVar) (hr : s.rest = zs)
    (ho : isOp ((zs.dropWhile isspace).headD 0) = false) :
    wp (evalTail h eval left) (fun _ t => After s none (zs.dropWhile isspace) t)
      (fun _ _ => True) s := by
  have hrest : (skipped s).rest = zs.dropWhile isspace := by rw [rest_skipped, hr]
  rw [evalTail, wp_bind, wp_skipWhitespace, wp_bind, wp_peek, seen_skipped,
    if_neg (by rw [cur_eq hrest]; exact Bool.eq_false_iff.mp ho)]
  exact ⟨hrest, rfl, fun _ _ hm => absurd hm (Option.not_mem_none _)⟩

/-- Behind an operator the evaluator goes on as `eval` does. -/
theorem after_evalTail_op {eval : Msh MshVar} (left : MshVar) {b : Blanks} {o : Op}
    {id : Option (List Byte)} (hr : s.rest = b.text ++ o.byte :: ys)
    (hev : ∀ t, Frame s t → t.rest = ys → t.identBuf = s.identBuf →
      wp eval (fun _ u => After t id zs u) (fun _ _ => True) t) :
    wp (evalTail h eval left) (fun _ t => After s id zs t) (fun _ _ => True) s := by
  have hrest := rest_skipped_of_blanks hr (isspace_of_isOp o.isOp)
  have hcur : (skipped s).cur = o.byte := cur_eq hrest
  have hne : (skipped s).cur ≠ 0 := fun h0 => by
    have := o.isOp
    rw [← hcur, h0] at this
    cases this
  have hf : Frame s { skipped s with pc := (skipped s).pc + 1 } :=
    trans_of Frame (frame_skipped s) (frame_advance hne)
  rw [evalTail, wp_bind, wp_skipWhitespace, wp_bind, wp_peek, seen_skipped,
    if_pos (by rw [hcur]; exact o.isOp), wp_bind, wp_advance, wp_bind]
  refine wp_mono (hev _ hf (rest_advance hrest) rfl) (fun right t ha => ?_) fun _ _ _ => trivial
  have ha' : After s id zs t := ⟨ha.rest, ha.ident, ha.found⟩
  refine wp_bind.mpr (wp_mono (quiet_unify h _ _ _) (fun _ u hq => ?_) fun _ _ _ => trivial)
  exact wp_mono (quiet_applyOp h _ _ _ _ _ _) (fun _ _ hq' => (ha'.quiet hq).quiet hq')
    fun _ _ _ => trivial

/-- An operand, and what is behind it. -/
theorem after_evalExprN_succ {n : ℕ} {b : Blanks} {p : Prim} (id : Option (List Byte))
    (hr : s.rest = b.text ++ (p.text ++ ys)) (hp : p.Ends ys)
    (htail : ∀ v t, Frame s t → t.rest = ys →
      wp (evalTail h (evalExprN h n) v) (fun _ u => After t id zs u) (fun _ _ => True) t) :
    wp (evalExprN h (n + 1)) (fun _ u => After s (id.or p.ident) zs u) (fun _ _ => True) s := by
  rw [evalExprN, wp_bind]
  refine wp_mono (wp_and (after_evalOperand h _ hr hp) (frame_evalOperand h s)) ?_
    fun _ _ _ => trivial
  rintro _ t ⟨⟨⟨v, rfl⟩, ha⟩, hf⟩
  refine wp_mono (wp_and (htail v t hf ha.rest) (frame_evalTail h (frame_evalExprN h n) v))
    (fun _ u hu => ha.trans hf hu.2 hu.1) fun _ _ _ => trivial

/-- **An expression is read to its end**, and the blanks there; what it leaves in the buffer is its
last identifier — induction on the expression. -/
theorem after_evalExprN {tail : List Byte} (e : Expr) (n : ℕ) {s : Machine}
    (hr : s.rest = e.text ++ tail) (he : e.Ends tail) :
    wp (evalExprN h n) (fun _ t => After s e.lastIdent (tail.dropWhile isspace) t)
      (fun _ _ => True) s := by
  induction e generalizing n s with
  | last b p =>
    obtain ⟨hp, ho⟩ := he
    cases n with
    | zero => trivial
    | succ n =>
      refine after_evalExprN_succ (b := b) h none ?_ hp fun v t _ ht => ?_
      · rw [hr, Expr.text, List.append_assoc]
      · exact after_evalTail_last h _ v ht ho
  | op b p b' o e ih =>
    obtain ⟨hp, he⟩ := he
    cases n with
    | zero => trivial
    | succ n =>
      have hends : p.Ends (b'.text ++ o.byte :: (e.text ++ tail)) :=
        hp.congr (by cases b'.text <;> rfl)
      refine after_evalExprN_succ (b := b) h _ ?_ hends fun v t _ ht => ?_
      · rw [hr, Expr.text]
        simp only [List.append_assoc, List.cons_append]
      · exact after_evalTail_op h v ht fun u _ hu _ => ih n hu he

theorem evalExpr_text {tail : List Byte} {e : Expr} (hr : s.rest = e.text ++ tail)
    (he : e.Ends tail) : wp (evalExpr h)
      (fun _ t => After s e.lastIdent (tail.dropWhile isspace) t) (fun _ _ => True) s :=
  after_evalExprN h e _ hr he

end Msh

end HuskyKernel
