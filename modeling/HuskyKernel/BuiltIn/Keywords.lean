import HuskyKernel.BuiltIn.Syntax

/-!
# BuiltIn/Keywords — what becomes of the built-in words

`True`, `False`, `inw(`, `outw(` and `input(` start with a letter, and the test for a letter comes
first.  So each of them is read as the name of a variable, wherever it stands (`never_applies`).
-/

namespace HuskyKernel

open Wp Scan Msh

/-- The built-in words. -/
inductive Builtin where
  | true
  | false
  | inw
  | outw
  | input
deriving DecidableEq

namespace Builtin

/-- The name in front of the parenthesis, if there is one. -/
def name : Builtin → String
  | true => "True"
  | false => "False"
  | inw => "inw"
  | outw => "outw"
  | input => "input"

/-- Does the word end with a parenthesis? -/
def isCall : Builtin → Bool
  | true | false => Bool.false
  | inw | outw | input => Bool.true

/-- The word. -/
def text (w : Builtin) : List Byte := str w.name ++ if w.isCall then [chr '('] else []

/-- `zs` does not go on with the word in front of it. -/
def Ends (zs : List Byte) (w : Builtin) : Prop :=
  w.isCall = Bool.true ∨ isIdent (zs.headD 0) = Bool.false

end Builtin

/-- The operand in front of the cursor is read by the rule of the built-in words. -/
def Applies (h : Host) (n : ℕ) (s : Machine) : Prop :=
  evalOperand h (evalExprN h n) s = builtinWord h (evalExprN h n) (skipped s)

/-! ## The rule -/

section Rule

variable {h : Host} {s : Machine} {ys zs : List Byte} {w : Builtin} {n : ℕ}

/-- The cursor is not moved back. -/
def Onward (s t : Machine) : Prop := s.pc ≤ t.pc

instance : IsPreorder Machine Onward where
  refl _ := Nat.le_refl _
  trans _ _ _ := Nat.le_trans

theorem onward_evalExprN (h : Host) (n : ℕ) : Keeps Onward (fun _ => True) (evalExprN h n) :=
  fun s => wp_mono (frame_evalExprN h n s) (fun _ _ hf => hf.pc_le)
    fun _ _ hf => ⟨trivial, hf.2.pc_le⟩

theorem onward_peek : Keeps Onward (fun _ => True) peek := fun _ => Nat.le_refl _

theorem onward_advance (k : ℕ) : Keeps Onward (fun _ => True) (advance k) := fun _ =>
  Nat.le_add_right _ _

theorem onward_inw (p : Word) : Keeps Onward (fun _ => True) (Msh.inw h p) := fun _ => Nat.le_refl _

theorem onward_emit (e : Event) : Keeps Onward (fun _ => True) (emit e) := fun _ => Nat.le_refl _

/-- Computing on values does not move the cursor. -/
theorem onward_of_quiet {α : Type} {m : Msh α} (hm : Keeps Quiet Stop.Real m) :
    Keeps Onward (fun _ => True) m := fun s =>
  wp_mono (hm s) (fun _ _ hq => hq.pc.ge) fun _ _ hq => ⟨trivial, hq.2.pc.ge⟩

theorem onward_strdupLine (line : List Byte) :
    Keeps Onward (fun _ => True) (strdupLine h line) := by
  refine onward_of_quiet (.bind (quiet_malloc h _) fun p => .ite ?_ (.pure _))
  exact .bind (quiet_store _ _) fun _ => .pure _

theorem onward_builtinInput : Keeps Onward (fun _ => True) (builtinInput h) := by
  refine .bind (fun s => ?_) fun p => .ite (.pure _) (.pure _)
  rw [mshReadLine, wp_bind, wp_get]
  cases readLineLoop [] false [] s.keys with
  | none => exact ⟨trivial, Nat.le_refl _⟩
  | some r => exact wp_bind.mpr (wp_set.mpr (onward_strdupLine r.1 _))

theorem onward_fail (o : Operand) : Keeps Onward (fun _ => True) (do raise; return o) :=
  .bind (onward_of_quiet quiet_raise) fun _ => .pure _

/-- Behind a word, and no further back. -/
theorem beyond_advance {α : Type} {k : ℕ} {f : Unit → Msh α}
    (hf : Keeps Onward (fun _ => True) (f ())) : wp (advance k >>= f) (fun _ t => s.pc + k ≤ t.pc)
      (fun _ t => s.pc + k ≤ t.pc) s :=
  wp_bind.mpr (wp_advance.mpr (wp_mono (hf _) (fun _ _ ht => ht) fun _ _ ht => ht.2))

theorem keyword_of_rest {t : String} {k : ℕ} {b : Bool} (hrest : s.rest = ys)
    (hb : decide (strncmp ys (str t) k = 0) = b) : keyword t k s = .ok b s := by
  rw [keyword, hrest, hb]

/-- A word that is not there. -/
theorem other_keyword {t : String} {k : ℕ} {m₁ m₂ : Msh Operand} (hrest : s.rest = ys)
    (hb : decide (strncmp ys (str t) k = 0) = false) :
    (do if ← keyword t k then m₁ else m₂) s = m₂ s := by
  rw [bind_of_ok (keyword_of_rest hrest hb), if_neg Bool.false_ne_true]

/-- The word that is there. -/
theorem this_keyword {t : String} {k : ℕ} {m₁ m₂ : Msh Operand} (hrest : s.rest = ys)
    (hb : decide (strncmp ys (str t) k = 0) = true) :
    (do if ← keyword t k then m₁ else m₂) s = m₁ s := by
  rw [bind_of_ok (keyword_of_rest hrest hb), if_pos rfl]

/-- The rule of a call steps over the word, and then no further back. -/
theorem builtinWord_call (hw : w.isCall = true) (hrest : s.rest = w.text ++ ys) :
    ∃ f : Msh Operand, builtinWord h (evalExprN h n) s = (advance w.text.length >>= fun _ => f) s ∧
      Keeps Onward (fun _ => True) f := by
  unfold builtinWord
  cases w with
  | true => cases hw
  | false => cases hw
  | inw =>
    rw [other_keyword hrest rfl, other_keyword hrest rfl, this_keyword hrest rfl]
    refine ⟨_, rfl, .bind (onward_evalExprN h n) fun arg => .bind onward_peek fun c => ?_⟩
    refine .ite ?_ (onward_fail _)
    exact .bind (onward_advance 1) fun _ => .bind (onward_inw _) fun _ => .pure _
  | outw =>
    rw [other_keyword hrest rfl, other_keyword hrest rfl, other_keyword hrest rfl,
      this_keyword hrest rfl]
    refine ⟨_, rfl, .bind (onward_evalExprN h n) fun port => .bind onward_peek fun c => ?_⟩
    refine .ite (onward_fail _) (.bind (onward_advance 1) fun _ => ?_)
    refine .bind (onward_evalExprN h n) fun value => .bind onward_peek fun c => ?_
    refine .ite ?_ (onward_fail _)
    exact .bind (onward_advance 1) fun _ => .bind (onward_emit _) fun _ => .pure _
  | input =>
    have hinput : Keeps Onward (fun _ => True) (do
        advance 1
        return Operand.done (← builtinInput h)) :=
      .bind (onward_advance 1) fun _ => .bind onward_builtinInput fun _ => .pure _
    have hclose : Keeps Onward (fun _ => True) (do
        if (← peek) ≠ chr ')' then
          raise
          return Operand.done MshVar.zero
        advance 1
        return .done (← builtinInput h)) :=
      .bind onward_peek fun c => .ite (onward_fail _) hinput
    rw [other_keyword hrest rfl, other_keyword hrest rfl, other_keyword hrest rfl,
      other_keyword hrest rfl, this_keyword hrest rfl]
    refine ⟨_, rfl, .bind onward_peek fun c => .ite hinput ?_⟩
    refine .bind (onward_evalExprN h n) fun prompt => .ite (.bind ?_ fun _ => hclose) hclose
    exact .bind (onward_of_quiet (quiet_cstrAt _)) fun _ => onward_emit _

/-- The rule of a truth value. -/
theorem builtinWord_truth (hw : w.isCall = false) (hrest : s.rest = w.text ++ ys) :
    builtinWord h (evalExprN h n) s = .ok
      (.left { MshVar.zero with type := .bool, val := if w = .true then 1 else 0 })
      { s with pc := s.pc + w.text.length } := by
  unfold builtinWord
  cases w with
  | true =>
    rw [this_keyword hrest rfl]
    rfl
  | false =>
    rw [other_keyword hrest rfl, this_keyword hrest rfl]
    rfl
  | _ => cases hw

end Rule

/-! ## What is done instead -/

section Variable

variable {h : Host} {s u : Machine} {ys : List Byte} {w : Builtin} {n : ℕ}

/-- **On a letter a variable is read.** -/
theorem evalOperand_of_isalpha (eval : Msh MshVar) (ha : isalpha (skipped s).cur = true) :
    evalOperand h eval s = (Operand.left <$> variableRef h) (skipped s) := by
  have hq : (skipped s).cur ≠ chr '"' := fun h0 => by
    rw [h0] at ha
    cases ha
  rw [evalOperand, bind_of_ok (skipWhitespace_eq s), bind_of_ok (show peek _ = .ok _ _ from rfl),
    seen_skipped, if_neg (by rw [isdigit_of_isalpha ha]; exact Bool.false_ne_true), if_neg hq,
    if_pos ha]
  rfl

/-- Its name is an identifier. -/
def Builtin.ident (w : Builtin) : Ident where
  text := str w.name
  letter := by cases w <;> decide
  chars := by cases w <;> exact List.all_eq_true.mp rfl

theorem rest_builtin (hrest : u.rest = w.text ++ ys) :
    u.rest = w.ident.text ++ ((if w.isCall then [chr '('] else []) ++ ys) := by
  rw [hrest, Builtin.text, List.append_assoc]
  rfl

theorem isalpha_builtin (hrest : u.rest = w.text ++ ys) : isalpha u.cur = true := by
  rw [cur_eq (rest_builtin hrest), headD_append isalpha_zero w.ident.letter]
  exact w.ident.letter

/-- `parse_ident` reads the name, and stops behind it. -/
theorem parsed_builtin (hrest : u.rest = w.text ++ ys) (hw : w.Ends ys) :
    (parsed u).identBuf = str w.name ∧ (parsed u).pc = u.pc + (str w.name).length := by
  have hends : isIdent (((if w.isCall then [chr '('] else []) ++ ys).headD 0) = false := by
    cases hcall : w.isCall with
    | true => rfl
    | false => exact hw.resolve_left (by rw [hcall]; exact Bool.false_ne_true)
  have hscan : scan isIdent u.code u.pc = u.pc + (str w.name).length :=
    scan_append (d := 0) (rest_builtin hrest) w.ident.chars hends
  obtain ⟨-, hbuf⟩ := rest_parsed (rest_builtin hrest) hends
  refine ⟨hbuf.trans (by cases w <;> rfl), ?_⟩
  change scan isIdent u.code (skipped u).pc = _
  rw [skipped_of_isalpha (isalpha_builtin hrest), hscan]

/-- A variable found by the name of a word has a name. -/
theorem name_ne_of_lookup {i : ℕ} (hl : s.lookup (str w.name) = some i) :
    (s.vars i).name ≠ MshVar.zero.name := by
  intro hzero
  have hname := (Machine.lookup_eq_some.mp hl).1
  rw [MshVar.bytes, hzero] at hname
  have hnil : cstr (MshVar.zero.name ++ [(s.vars i).type.tag]) = [] := rfl
  rw [hnil] at hname
  revert hname
  cases w <;> decide

/-- **The word is read as a name**: the cursor stops behind the name, and the value has a name, or
no type. -/
theorem wp_variableRef_builtin (hrest : u.rest = w.text ++ ys) (hw : w.Ends ys) :
    wp (variableRef h) (fun v t => t.pc = u.pc + (str w.name).length ∧
        (v = MshVar.zero ∨ v.name ≠ MshVar.zero.name))
      (fun _ t => t.pc = u.pc + (str w.name).length) u := by
  obtain ⟨hbuf, hpc⟩ := parsed_builtin hrest hw
  have hname {i : ℕ} (hl : u.lookup (parsed u).identBuf = some i) :
      (u.vars i).name ≠ MshVar.zero.name := name_ne_of_lookup (hbuf ▸ hl)
  refine wp_variableRef h (fun _ => ⟨hpc, Or.inl rfl⟩) (fun i hl _ => ?_)
    fun i hl _ => ⟨hpc, Or.inr (hname hl)⟩
  exact wp_mono (quiet_strdup h _ _) (fun _ _ hq => ⟨hq.pc.trans hpc, Or.inr (hname hl)⟩)
    fun _ _ hq => hq.2.pc.trans hpc

/-- The rule leaves another operand, or the cursor further on. -/
theorem not_applies (hrest : (skipped s).rest = w.text ++ ys) (hw : w.Ends ys) :
    ¬ Applies h n s := by
  intro happlies
  rw [Applies, evalOperand_of_isalpha _ (isalpha_builtin hrest)] at happlies
  have hvar : wp (Operand.left <$> variableRef h) (fun o t =>
      t.pc = (skipped s).pc + (str w.name).length ∧
        ∃ v, o = .left v ∧ (v = MshVar.zero ∨ v.name ≠ MshVar.zero.name))
      (fun _ t => t.pc = (skipped s).pc + (str w.name).length) (skipped s) :=
    Iff.mpr (wp_map _) (wp_mono (wp_variableRef_builtin hrest hw)
      (fun v _ ht => ⟨ht.1, v, rfl, ht.2⟩) fun _ _ ht => ht)
  cases hcall : w.isCall with
  | true =>
    -- the rule has stepped over the parenthesis
    have hlen : w.text.length = (str w.name).length + 1 := by
      rw [Builtin.text, hcall, List.length_append]
      rfl
    obtain ⟨f, hf, hkeeps⟩ := builtinWord_call (n := n) (h := h) hcall hrest
    have hbeyond := beyond_advance (s := skipped s) (k := w.text.length) (f := fun _ => f) hkeeps
    have hstop := wp_after.mp (wp_mono hvar (fun _ _ ht => ht.1) fun _ _ ht => ht)
    have hon := wp_after.mp hbeyond
    have hsame : after (Operand.left <$> variableRef h) (skipped s) =
        after (advance w.text.length >>= fun _ => f) (skipped s) := by
      rw [after, after, happlies, hf]
    rw [hsame] at hstop
    omega
  | false =>
    -- the rule's value has a type and no name
    have htruth := builtinWord_truth (n := n) (h := h) hcall hrest
    rw [← happlies] at htruth
    obtain ⟨-, v, hv, hname⟩ := (wp_of_ok htruth).mp hvar
    obtain rfl := Operand.left.inj hv
    rcases hname with hzero | hname
    · exact MshType.noConfusion (congrArg MshVar.type hzero)
    · exact hname rfl

/-- **No built-in word is applied**: where one stands, a variable of that name is read. -/
theorem never_applies (h : Host) (n : ℕ) (s : Machine) (w : Builtin) (ys : List Byte)
    (hrest : (skipped s).rest = w.text ++ ys) (hw : w.Ends ys) :
    ¬ Applies h n s ∧
      evalOperand h (evalExprN h n) s = (Operand.left <$> variableRef h) (skipped s) :=
  ⟨not_applies hrest hw, evalOperand_of_isalpha _ (isalpha_builtin hrest)⟩

/-- Behind a blank, `inw(1)`. -/
def inwOne : Machine := { Machine.boot with code := str " inw(1)" ++ [0] }

theorem never_applies_inw : ¬ Applies Host.bare 2 inwOne ∧
    evalOperand Host.bare (evalExprN Host.bare 2) inwOne =
      (Operand.left <$> variableRef Host.bare) (skipped inwOne) :=
  never_applies Host.bare 2 inwOne .inw (str "1)" ++ [0]) (by decide) (Or.inl rfl)

/-- `inw(1)` reads no port. -/
theorem not_always_applies : ¬ ∀ (h : Host) (n : ℕ) (s : Machine) (w : Builtin) (ys : List Byte),
    (skipped s).rest = w.text ++ ys → w.Ends ys → Applies h n s := by
  intro hall
  have hrest : (skipped inwOne).rest = Builtin.inw.text ++ (str "1)" ++ [0]) := by decide
  have hends : Builtin.inw.Ends (str "1)" ++ [0]) := Or.inl rfl
  exact not_applies hrest hends (hall Host.bare 2 inwOne .inw _ hrest hends)

end Variable

end HuskyKernel
