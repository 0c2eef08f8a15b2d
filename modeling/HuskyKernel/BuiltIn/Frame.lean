import HuskyKernel.BuiltIn.Execute

/-!
# BuiltIn/Frame — what evaluating an expression leaves alone

`Quiet s t`: computing on values — memory, heap and log move, an error may be raised, nothing else.
`Frame s t`: evaluating — the cursor moves on as well, but past no NUL, and a later name may be left
in `parse_ident`'s buffer.  Both are preorders, so they hold of a function as soon as they hold of
its parts (`Wp.Keeps`); `frame_evalExpr` is the one induction on the depth of an expression.
-/

namespace HuskyKernel

/-- The events that reach the console or a port. -/
def Event.isOutput : Event → Bool
  | .strArg _ _ | .dest _ => false
  | .printk _ | .putchar _ | .inw _ | .outw _ _ => true

/-- What a run has done to the outside. -/
def output (log : List Event) : List Event := log.filter Event.isOutput

/-- From `s` to `t` only memory, the heap and the silent part of the log have changed, or an error
has been raised. -/
structure Quiet (s t : Machine) : Prop where
  vars : t.vars = s.vars
  varCount : t.varCount = s.varCount
  code : t.code = s.code
  pc : t.pc = s.pc
  identBuf : t.identBuf = s.identBuf
  reach : t.reach = s.reach
  err : s.hadError = true → t.hadError = true
  output : output t.log = output s.log

instance : IsPreorder Machine Quiet where
  refl _ := ⟨rfl, rfl, rfl, rfl, rfl, rfl, id, rfl⟩
  trans _ _ _ h h' := ⟨h'.vars.trans h.vars, h'.varCount.trans h.varCount, h'.code.trans h.code,
    h'.pc.trans h.pc, h'.identBuf.trans h.identBuf, h'.reach.trans h.reach,
    fun he => h'.err (h.err he), h'.output.trans h.output⟩

/-- From `s` to `t` an expression has been evaluated: the table, the program and the outside are as
they were, no error has been cleared, and the cursor has moved on past no NUL of the program. -/
structure Frame (s t : Machine) : Prop where
  vars : t.vars = s.vars
  varCount : t.varCount = s.varCount
  code : t.code = s.code
  err : s.hadError = true → t.hadError = true
  output : output t.log = output s.log
  ident : s.identBuf ≠ [] → t.identBuf ≠ []
  pc_le : s.pc ≤ t.pc
  pc_bound : ∀ nul, s.code.getD nul 0 = 0 → s.pc ≤ nul → t.pc ≤ nul
  reach_bound : ∀ nul, s.code.getD nul 0 = 0 → s.pc ≤ nul → t.reach ≤ max s.reach nul

instance : IsPreorder Machine Frame where
  refl s := ⟨rfl, rfl, rfl, id, rfl, id, le_refl _, fun _ _ h => h, fun _ _ _ => le_max_left _ _⟩
  trans s t u h h' := by
    refine ⟨h'.vars.trans h.vars, h'.varCount.trans h.varCount, h'.code.trans h.code,
      fun he => h'.err (h.err he), h'.output.trans h.output, fun hi => h'.ident (h.ident hi),
      h.pc_le.trans h'.pc_le, fun nul h0 hn => ?_, fun nul h0 hn => ?_⟩
    · exact h'.pc_bound nul (h.code ▸ h0) (h.pc_bound nul h0 hn)
    · have h₁ := h.reach_bound nul h0 hn
      have h₂ := h'.reach_bound nul (h.code ▸ h0) (h.pc_bound nul h0 hn)
      omega

theorem Quiet.frame {s t : Machine} (h : Quiet s t) : Frame s t where
  vars := h.vars
  varCount := h.varCount
  code := h.code
  err := h.err
  output := h.output
  ident hi := h.identBuf ▸ hi
  pc_le := h.pc.ge
  pc_bound _ _ hn := h.pc.trans_le hn
  reach_bound _ _ _ := h.reach.trans_le (le_max_left _ _)

theorem Quiet.rest {s t : Machine} (h : Quiet s t) : t.rest = s.rest := by
  rw [Machine.rest, h.code, h.pc, Machine.rest]

theorem Quiet.cur {s t : Machine} (h : Quiet s t) : t.cur = s.cur := by
  rw [Machine.cur, h.code, h.pc, Machine.cur]

namespace Msh

open Wp Scan

variable (h : Host)

/-! ## Values -/

theorem quiet_emit {e : Event} (he : e.isOutput = false) :
    Keeps Quiet Stop.Real (emit e) := fun s =>
  ⟨rfl, rfl, rfl, rfl, rfl, rfl, id, List.filter_cons_of_neg (by simp [he])⟩

theorem quiet_raise : Keeps Quiet Stop.Real raise := fun _ =>
  ⟨rfl, rfl, rfl, rfl, rfl, rfl, fun _ => rfl, rfl⟩

theorem quiet_malloc (n : Word) : Keeps Quiet Stop.Real (malloc h n) := fun _ =>
  ⟨rfl, rfl, rfl, rfl, rfl, rfl, id, rfl⟩

theorem quiet_store (a : Word) (bs : List Byte) : Keeps Quiet Stop.Real (store a bs) := fun _ =>
  ⟨rfl, rfl, rfl, rfl, rfl, rfl, id, rfl⟩

theorem quiet_cstrAt (a : Word) : Keeps Quiet Stop.Real (cstrAt a) := by
  intro s
  rw [wp, cstrAt]
  cases s.mem.cstr? a with
  | some bs => exact refl_of Quiet s
  | none => exact ⟨Stop.noConfusion, refl_of Quiet s⟩

theorem quiet_copyLoop (f : Mem → Option Mem) : Keeps Quiet Stop.Real (copyLoop f) := by
  intro s
  rw [wp, copyLoop]
  cases f s.mem with
  | none => exact ⟨Stop.noConfusion, refl_of Quiet s⟩
  | some m => exact ⟨rfl, rfl, rfl, rfl, rfl, rfl, id, rfl⟩

theorem quiet_strlen (v : MshVar) : Keeps Quiet Stop.Real (strlen v) :=
  .bind (quiet_emit rfl) fun _ => .bind (quiet_cstrAt _) fun _ => .pure _

theorem quiet_strcpy (dest : Word) (v : MshVar) : Keeps Quiet Stop.Real (strcpy dest v) :=
  .bind (quiet_emit rfl) fun _ => .bind (quiet_emit rfl) fun _ => quiet_copyLoop _

theorem quiet_strcat (dest : Word) (v : MshVar) : Keeps Quiet Stop.Real (strcat dest v) :=
  .bind (quiet_emit rfl) fun _ => .bind (quiet_emit rfl) fun _ => quiet_copyLoop _

theorem quiet_strdup (v : MshVar) : Keeps Quiet Stop.Real (strdup h v) := by
  refine .bind (quiet_emit rfl) fun _ => .ite (.pure _) ?_
  refine .bind (quiet_cstrAt _) fun _ => .bind (quiet_malloc h _) fun _ => ?_
  refine .ite (.bind (.modify fun _ => ?_) fun _ => .pure _) (.pure _)
  exact ⟨rfl, rfl, rfl, rfl, rfl, rfl, id, rfl⟩

/-- A conversion from a string: the string is read, a number made of it. -/
theorem quiet_ofStr (v : MshVar) (g : List Byte → MshVar) :
    Keeps Quiet Stop.Real (do emit (.strArg v.type v.val); return g (← cstrAt v.val)) :=
  .bind (quiet_emit rfl) fun _ => .bind (quiet_cstrAt _) fun _ => .pure _

/-- A conversion to a string: 32 bytes are asked for, and written if they are there. -/
theorem quiet_toStr (bs : List Byte) (g : Word → MshVar) :
    Keeps Quiet Stop.Real (do
      let p ← malloc h 32
      if p ≠ 0 then
        emit (.dest p)
        store p bs
      return g p) := by
  refine .bind (quiet_malloc h _) fun p => .ite ?_ (.pure _)
  exact .bind (quiet_emit rfl) fun _ => .bind (quiet_store _ _) fun _ => .pure _

theorem quiet_convertVar (v : MshVar) (target : MshType) :
    Keeps Quiet Stop.Real (convertVar h v target) := by
  unfold convertVar
  split
  · exact quiet_toStr h _ _
  · exact .pure _
  · exact quiet_toStr h _ _
  · exact .pure _
  · exact quiet_ofStr v _
  · exact quiet_ofStr v _
  · exact .pure _

theorem quiet_unify (left right : MshVar) : Keeps Quiet Stop.Real (unify h left right) := by
  have hpair (target : MshType) : Keeps Quiet Stop.Real (do
      let l ← convertVar h left target
      let r ← convertVar h right target
      return (target, l, r)) :=
    .bind (quiet_convertVar h _ _) fun _ => .bind (quiet_convertVar h _ _) fun _ => .pure _
  exact .ite (.ite (hpair .float) (.ite (hpair .int) (.pure _))) (.pure _)

theorem quiet_concat (left right : MshVar) : Keeps Quiet Stop.Real (concat h left right) := by
  refine .bind (quiet_strlen _) fun _ => .bind (quiet_strlen _) fun _ => ?_
  refine .bind (quiet_malloc h _) fun p => .bind (quiet_strcpy p left) fun _ => ?_
  exact .bind (quiet_strcat p right) fun _ => .pure _

theorem quiet_idiv (a b : Word) : Keeps Quiet Stop.Real (idiv a b) :=
  .ite (.throw Stop.noConfusion) (.pure _)

theorem quiet_applyOp (op : Byte) (result : MshVar) (common : MshType) (left right : MshVar) :
    Keeps Quiet Stop.Real (applyOp h op result common left right) := by
  refine .ite ?_ (.ite ?_ (.ite ?_ (.ite ?_ (.ite (.pure _) ?_))))
  · cases common
    case str => exact .bind (quiet_concat h _ _) fun _ => .pure _
    all_goals exact .pure _
  · cases common <;> exact .pure _
  · cases common <;> exact .pure _
  · exact .bind (quiet_idiv _ _) fun _ => .pure _
  · exact .bind quiet_raise fun _ => .pure _

/-! ## The cursor

Each read and each move of the cursor, as a rule; `frame_advance` asks for what the code has just
tested, that the cursor is on no NUL. -/

section Cursor

variable {s : Machine} {E : Stop → Machine → Prop}

@[simp] theorem wp_peek {Q : Byte → Machine → Prop} :
    wp peek Q E s ↔ Q s.cur s.seen := Iff.rfl

@[simp] theorem wp_advance {n : ℕ} {Q : Unit → Machine → Prop} :
    wp (advance n) Q E s ↔ Q () { s with pc := s.pc + n } := Iff.rfl

@[simp] theorem wp_scanCode {p : Byte → Bool} {Q : List Byte → Machine → Prop} :
    wp (scanCode p) Q E s ↔ Q (scanned p s.code s.pc)
      { s with pc := scan p s.code s.pc, reach := max s.reach (scan p s.code s.pc) } := Iff.rfl

@[simp] theorem wp_emit {e : Event} {Q : Unit → Machine → Prop} :
    wp (emit e) Q E s ↔ Q () { s with log := e :: s.log } := Iff.rfl

@[simp] theorem wp_store {a : Word} {bs : List Byte} {Q : Unit → Machine → Prop} :
    wp (store a bs) Q E s ↔ Q () { s with mem := s.mem.store a bs } := Iff.rfl

@[simp] theorem wp_malloc {n : Word} {Q : Word → Machine → Prop} :
    wp (malloc h n) Q E s ↔ Q (HuskyKernel.malloc h.heap n s.heapIndex).1
      { s with heapIndex := (HuskyKernel.malloc h.heap n s.heapIndex).2 } := Iff.rfl

@[simp] theorem wp_findVar {Q : Option ℕ → Machine → Prop} :
    wp findVar Q E s ↔ Q (s.lookup s.identBuf) s := Iff.rfl

@[simp] theorem wp_raise {Q : Unit → Machine → Prop} :
    wp raise Q E s ↔ Q () { s with hadError := true } := Iff.rfl

/-- **`scanCode` is the loop it stands for.** -/
theorem scanCode_eq_loop {p : Byte → Bool} (hp : p 0 = false) :
    scanCode p = do
      let c ← peek
      if p c then
        advance 1
        let cs ← scanCode p
        return c :: cs
      else return [] := by
  funext s
  rw [bind_of_ok (show peek s = .ok s.cur s.seen from rfl)]
  by_cases hc : p s.cur = true
  · rw [if_pos hc]
    have hle : s.pc ≤ scan p s.code (s.pc + 1) := (Nat.le_succ _).trans le_scan
    have hreach : max s.reach (scan p s.code s.pc)
        = max (max s.reach s.pc) (scan p s.code (s.pc + 1)) := by
      rw [scan_succ hc hp, max_assoc, max_eq_right hle]
    rw [scanCode, scanned_eq_cons hc hp, hreach, scan_succ hc hp]
    rfl
  · have hc' : p s.cur = false := by simpa using hc
    rw [if_neg hc]
    simp only [scanCode, scanned_eq_nil hc', scan_eq_self hc']
    rfl

theorem frame_peek : Keeps Frame Stop.Real peek := fun _ =>
  ⟨rfl, rfl, rfl, id, rfl, id, le_refl _, fun _ _ hn => hn, fun _ _ hn => max_le_max_left _ hn⟩

theorem frame_advance (hc : s.cur ≠ 0) : Frame s { s with pc := s.pc + 1 } := by
  refine ⟨rfl, rfl, rfl, id, rfl, id, Nat.le_succ _, fun nul h0 hn => ?_,
    fun _ _ _ => le_max_left _ _⟩
  rcases eq_or_lt_of_le hn with rfl | hlt
  · exact absurd h0 hc
  · exact hlt

theorem frame_scanCode {p : Byte → Bool} (hp : p 0 = false) :
    Keeps Frame Stop.Real (scanCode p) := by
  intro s
  have hle : ∀ nul, s.code.getD nul 0 = 0 → s.pc ≤ nul → scan p s.code s.pc ≤ nul :=
    fun nul h0 hn => scan_le hp (by rw [h0, hp]) hn
  exact ⟨rfl, rfl, rfl, id, rfl, id, le_scan, hle, fun nul h0 hn =>
    max_le_max_left _ (hle nul h0 hn)⟩

theorem frame_skipWhitespace : Keeps Frame Stop.Real skipWhitespace :=
  .bind (frame_scanCode isspace_zero) fun _ => .pure _

theorem isIdent_zero : isIdent 0 = false := by decide

/-- Where `skip_whitespace` takes the cursor. -/
def skipped (s : Machine) : Machine :=
  { s with pc := scan isspace s.code s.pc, reach := max s.reach (scan isspace s.code s.pc) }

@[simp] theorem skipped_hadError {s : Machine} : (skipped s).hadError = s.hadError := rfl

theorem skipWhitespace_eq (s : Machine) : skipWhitespace s = .ok () (skipped s) := rfl

/-- What `parse_ident` leaves. -/
def parsed (s : Machine) : Machine :=
  let t := skipped s
  { t with
    pc := scan isIdent t.code t.pc
    reach := max t.reach (scan isIdent t.code t.pc)
    identBuf := (scanned isIdent t.code t.pc).take 31 }

@[simp] theorem parsed_hadError {s : Machine} : (parsed s).hadError = s.hadError := rfl

@[simp] theorem wp_skipWhitespace {Q : Unit → Machine → Prop} :
    wp skipWhitespace Q E s ↔ Q () (skipped s) := Iff.rfl

@[simp] theorem wp_parseIdent {Q : Unit → Machine → Prop} :
    wp parseIdent Q E s ↔ Q () (parsed s) := Iff.rfl

theorem frame_skipped (s : Machine) : Frame s (skipped s) :=
  frame_skipWhitespace.ok (skipWhitespace_eq s)

/-- An identifier that starts with a letter is not empty. -/
theorem scanned_isIdent_ne_nil (ha : isalpha s.cur = true) :
    scanned isIdent s.code s.pc ≠ [] := by
  have hid : isIdent s.cur = true := by simp [isIdent, isalnum, ha]
  rw [scanned_eq_cons hid isIdent_zero]
  exact List.cons_ne_nil _ _

theorem skipped_of_isalpha (ha : isalpha s.cur = true) : (skipped s).pc = s.pc := by
  refine scan_eq_self (d := 0) (Bool.eq_false_iff.mpr fun hs => ?_)
  rw [isalpha_of_isspace (c := s.cur) hs] at ha
  cases ha

theorem identBuf_parsed_ne_nil (ha : isalpha s.cur = true) : (parsed s).identBuf ≠ [] := by
  have hpc := skipped_of_isalpha ha
  have hne := scanned_isIdent_ne_nil ha
  change (scanned isIdent s.code (skipped s).pc).take 31 ≠ []
  rw [hpc]
  simpa [List.take_eq_nil_iff] using hne

/-- On a letter, `parse_ident` is an evaluation step. -/
theorem frame_parsed (ha : isalpha s.cur = true) : Frame s (parsed s) := by
  have h₁ := frame_skipped s
  have h₂ : Frame (skipped s) _ := (frame_scanCode (p := isIdent) isIdent_zero (skipped s))
  have h₃ := trans_of Frame h₁ h₂
  exact ⟨h₃.vars, h₃.varCount, h₃.code, h₃.err, h₃.output, fun _ => identBuf_parsed_ne_nil ha,
    h₃.pc_le, h₃.pc_bound, h₃.reach_bound⟩

end Cursor

/-! ## The words out of reach

Every keyword starts with a letter, and a letter has been taken for an identifier before any keyword
is tried: off a letter each comparison fails at its first byte. -/

section Words

variable {s : Machine}

theorem headD_rest (s : Machine) : s.rest.headD 0 = s.cur := headD_drop _ _ _

theorem keyword_of_not_isalpha {w : String} {n : ℕ} (hw : isalpha ((str w).headD 0) = true)
    (ha : isalpha s.cur = false) : keyword w (n + 1) s = .ok false s := by
  have hne : s.rest.headD 0 ≠ (str w).headD 0 := by
    intro heq
    rw [← heq, headD_rest, ha] at hw
    cases hw
  rw [keyword, decide_eq_false (strncmp_ne_zero_of_headD hne)]

theorem builtinWord_eq (eval : Msh MshVar) (ha : isalpha s.cur = false) :
    builtinWord h eval s = .ok (.left MshVar.zero) s := by
  unfold builtinWord
  iterate 5 rw [bind_of_ok (keyword_of_not_isalpha (by decide) ha), if_neg Bool.false_ne_true]
  rfl

theorem keywordStmt_eq (run : List Byte → Msh Bool) (fuel : ℕ) (ha : isalpha s.cur = false) :
    keywordStmt h run fuel s = advance 1 s := by
  unfold keywordStmt
  iterate 3 rw [bind_of_ok (keyword_of_not_isalpha (by decide) ha), if_neg Bool.false_ne_true]

end Words

/-! ## Evaluation -/

section Evaluation

variable {s : Machine} {eval : Msh MshVar}

theorem frame_numberLiteral : Keeps Frame Stop.Real numberLiteral :=
  .bind (frame_scanCode isdigit_zero) fun _ => .pure _

theorem quiet_copyLiteral (start : ℕ) : Keeps Quiet Stop.Real (copyLiteral h start) := by
  refine .bind .get fun _ => .bind (quiet_malloc h _) fun _ => .bind (quiet_emit rfl) fun _ => ?_
  exact .bind (quiet_store _ _) fun _ => .bind (quiet_store _ _) fun _ => .pure _

theorem inString_zero : inString 0 = false := by decide

/-- A string literal: behind the opening quote the cursor stops at the closing one, or at the end of
the text; only over the former does it step. -/
theorem frame_stringLiteral (hc : s.cur = chr '"') :
    wp (stringLiteral h) (fun _ => Frame s) (fun e t => e.Real ∧ Frame s t) s := by
  rw [stringLiteral, wp_bind, wp_advance]
  refine wp_of_trans (frame_advance (by rw [hc]; decide)) ?_
  rw [wp_bind, wp_get, wp_bind, wp_scanCode]
  refine wp_of_trans (frame_scanCode inString_zero { s with pc := s.pc + 1 }) ?_
  rw [wp_bind, wp_peek]
  refine wp_of_trans (frame_peek _) ?_
  rw [wp_ite]
  refine ⟨fun _ => (quiet_raise.mono fun _ _ => Quiet.frame).bind (fun _ => .pure _) _,
    fun hq => ?_⟩
  rw [wp_bind]
  refine wp_mono (quiet_copyLiteral h _ _) (fun p t ht => ?_) fun _ _ ht => ⟨ht.1, ht.2.frame⟩
  refine trans_of Frame ht.frame (frame_advance fun h0 => ?_)
  exact absurd ((not_not.mp hq).symm.trans (ht.cur.symm.trans h0)) (by decide)

/-- **Reading a variable, case by case**: there is none, its string is duplicated, or its entry is
copied. -/
theorem wp_variableRef {Q : MshVar → Machine → Prop} {E : Stop → Machine → Prop}
    (hnone : s.lookup (parsed s).identBuf = none → Q MshVar.zero { parsed s with hadError := true })
    (hstr : ∀ i, s.lookup (parsed s).identBuf = some i → (s.vars i).type = .str →
      wp (strdup h (s.vars i)) (fun p => Q { s.vars i with val := p }) E (parsed s))
    (hother : ∀ i, s.lookup (parsed s).identBuf = some i → (s.vars i).type ≠ .str →
      Q (s.vars i) (parsed s)) : wp (variableRef h) Q E s := by
  have hlookup : (parsed s).lookup (parsed s).identBuf = s.lookup (parsed s).identBuf := rfl
  rw [variableRef, wp_bind, wp_parseIdent, wp_bind, wp_findVar, hlookup]
  cases hl : s.lookup (parsed s).identBuf with
  | none => exact hnone hl
  | some i =>
    rw [wp_bind, wp_get, wp_ite]
    exact ⟨fun ht => wp_bind.mpr (hstr i hl ht), hother i hl⟩

theorem frame_variableRef (ha : isalpha s.cur = true) :
    wp (variableRef h) (fun _ => Frame s) (fun e t => e.Real ∧ Frame s t) s := by
  rw [variableRef, wp_bind, wp_parseIdent, wp_bind, wp_findVar]
  refine wp_of_trans (frame_parsed ha) ?_
  split
  · refine Keeps.bind .get (fun _ => Keeps.ite ?_ (.pure _)) _
    exact Keeps.bind ((quiet_strdup h _).mono fun _ _ => Quiet.frame) fun _ => .pure _
  · exact (quiet_raise.mono fun _ _ => Quiet.frame).bind (fun _ => .pure _) _

theorem frame_evalOperand : Keeps Frame Stop.Real (evalOperand h eval) := by
  intro s
  rw [evalOperand, wp_bind, wp_skipWhitespace, wp_bind, wp_peek]
  refine wp_of_trans (trans_of Frame (frame_skipped s) (frame_peek _)) ?_
  simp only [wp_ite]
  refine ⟨fun _ => ?_, fun _ => ⟨fun hq => frame_stringLiteral h hq, fun _ => ⟨fun ha => ?_, ?_⟩⟩⟩
  · exact frame_numberLiteral.bind (fun _ => .pure _) _
  · rw [wp_bind]
    exact frame_variableRef h ha
  · intro ha
    refine (wp_of_ok (builtinWord_eq h eval ?_)).mpr (refl_of Frame _)
    exact Bool.eq_false_iff.mpr ha

theorem isOp_zero : isOp 0 = false := by decide

theorem lt_length_of_cur (hc : s.cur ≠ 0) : s.pc < s.code.length := by
  by_contra hge
  exact hc (List.getD_eq_default _ _ (by omega))

/-- Depth `n` is enough for what is left of the text. -/
def Deep (n : ℕ) (s : Machine) : Prop := 0 < n ∧ s.code.length < n + s.pc

theorem Deep.of_frame {n : ℕ} {t : Machine} (hn : Deep n s) (hf : Frame s t) : Deep n t := by
  have := hf.pc_le
  refine ⟨hn.1, ?_⟩
  rw [hf.code]
  exact hn.2.trans_le (by omega)

/-- Behind a character, one level less is enough. -/
theorem Deep.of_advance {n : ℕ} (hn : Deep (n + 1) s) (hc : s.cur ≠ 0) :
    Deep n { s with pc := s.pc + 1 } := by
  have hlen := lt_length_of_cur hc
  have := hn.2
  refine ⟨by omega, ?_⟩
  change s.code.length < n + (s.pc + 1)
  omega

theorem frame_evalTail {n : ℕ}
    (hev : ∀ s, wp eval (fun _ => Frame s) (fun e t => (Deep n s → e.Real) ∧ Frame s t) s)
    (left : MshVar) :
    wp (evalTail h eval left) (fun _ => Frame s)
      (fun e t => (Deep (n + 1) s → e.Real) ∧ Frame s t) s := by
  have hskip := trans_of Frame (frame_skipped s) (frame_peek.ok rfl)
  rw [evalTail, wp_bind, wp_skipWhitespace, wp_bind, wp_peek]
  refine wp_of_trans hskip ?_
  simp only [wp_ite]
  refine ⟨fun hop => ?_, fun _ => refl_of Frame _⟩
  have hcur : (skipped s).cur ≠ 0 := fun h0 => by rw [h0, isOp_zero] at hop; cases hop
  rw [wp_bind, wp_advance]
  refine wp_of_trans (frame_advance (s := (skipped s).seen) hcur) ?_
  rw [wp_bind]
  refine wp_mono (hev _) (fun right t ht => wp_of_trans ht ?_)
    fun e t ht => ⟨fun hn => ht.1 ?_, ht.2⟩
  · have hrest : Keeps Frame Stop.Real (unify h left right >>= fun p =>
        applyOp h (skipped s).cur { left with type := p.1 } p.1 p.2.1 p.2.2) :=
      .bind ((quiet_unify h _ _).mono fun _ _ => Quiet.frame) fun _ =>
        (quiet_applyOp h _ _ _ _ _).mono fun _ _ => Quiet.frame
    exact wp_mono (hrest t) (fun _ _ hu => hu) fun _ _ hu => ⟨fun _ => hu.1, hu.2⟩
  · exact (hn.of_frame hskip).of_advance hcur

/-- **Evaluating an expression leaves everything else alone**, and does not run out of depth —
induction on the depth. -/
theorem frame_evalExprN (n : ℕ) (s : Machine) : wp (evalExprN h n) (fun _ => Frame s)
    (fun e t => (Deep n s → e.Real) ∧ Frame s t) s := by
  induction n generalizing s with
  | zero => exact ⟨fun hn => absurd hn.1 (Nat.lt_irrefl 0), refl_of Frame s⟩
  | succ n ih =>
    rw [evalExprN, wp_bind]
    refine wp_mono (frame_evalOperand h s) (fun op t ht => ?_) fun e t ht => ⟨fun _ => ht.1, ht.2⟩
    cases op with
    | done v => exact ht
    | left v =>
      refine wp_mono (frame_evalTail h ih v) (fun _ _ => trans_of Frame ht) fun e u hu => ?_
      exact ⟨fun hn => hu.1 (hn.of_frame ht), trans_of Frame ht hu.2⟩

theorem frame_evalExpr : Keeps Frame Stop.Real (evalExpr h) := fun s =>
  wp_mono (frame_evalExprN h _ s) (fun _ _ ht => ht) fun _ _ ht =>
    ⟨ht.1 ⟨Nat.succ_pos _, Nat.lt_of_lt_of_le (Nat.lt_succ_self _) (Nat.le_add_right _ _)⟩, ht.2⟩

end Evaluation

end Msh

end HuskyKernel
