import HuskyKernel.BuiltIn.Frame
import HuskyKernel.Logic.Steps

/-!
# BuiltIn/Run — `msh_execute` as a run of statements

`Step h s t`: at a head `s` of the main loop the test passes, and one statement leads to the head
`t`.  `step_cases` says once what a statement can do — everything behind it is read off there.
`mshExecute_ok` and `mshExecute_of_steps` turn a call of `msh_execute` into a run of `Step`s and
back, so that a claim about a call is a claim about its steps.
-/

namespace HuskyKernel

namespace Msh

open Wp Scan

variable (h : Host) {s t u : Machine}

/-! ## The statements there are -/

/-- Every statement is an identifier's, or the catch-all: the keywords are out of reach. -/
def plainStmt : Msh Unit := do
  skipWhitespace
  if isalpha (← peek) then identStmt h
  else advance 1

theorem stmt_eq (run : List Byte → Msh Bool) (fuel : ℕ) : stmt h run fuel = plainStmt h := by
  funext s
  change (if isalpha (skipped s).cur = true then identStmt h else keywordStmt h run fuel)
      (skipped s).seen
    = (if isalpha (skipped s).cur = true then identStmt h else advance 1) (skipped s).seen
  by_cases ha : isalpha (skipped s).cur = true
  · rw [if_pos ha, if_pos ha]
  · rw [if_neg ha, if_neg ha]
    exact keywordStmt_eq h run fuel (Bool.eq_false_iff.mpr ha)

/-- One round of the main loop: the test passes at `s`, and the statement leads to `t`. -/
structure Step (s t : Machine) : Prop where
  cur : s.cur ≠ 0
  err : s.hadError = false
  stmt : ∃ fuel, stmt h (mshExecute h fuel) fuel s.seen = .ok () t

/-- The main loop is left at `s`. -/
def Final (s : Machine) : Prop := s.cur = 0 ∨ s.hadError = true

variable {h}

theorem Step.plain (hst : Step h s t) : plainStmt h s.seen = .ok () t := by
  obtain ⟨_, hr⟩ := hst.stmt
  rwa [stmt_eq] at hr

theorem Step.of_plain (hc : s.cur ≠ 0) (he : s.hadError = false)
    (hr : plainStmt h s.seen = .ok () t) : Step h s t := ⟨hc, he, 0, by rwa [stmt_eq]⟩

theorem step_rightUnique : Relator.RightUnique (Step h) := by
  intro s t u hst hsu
  have hr := hst.plain.symm.trans hsu.plain
  injection hr

theorem final_iff : Final s ↔ ¬ (s.cur ≠ 0 ∧ s.hadError = false) := by
  rw [Final, not_and_or, not_not, Bool.not_eq_false]

theorem Final.not_step (hf : Final s) (t : Machine) : ¬ Step h s t := fun hst =>
  final_iff.mp hf ⟨hst.cur, hst.err⟩

/-! ## What a statement can do -/

theorem seen_skipped (s : Machine) : (skipped s).seen = skipped s := by
  rw [Machine.seen, show max (skipped s).reach (skipped s).pc = (skipped s).reach from
    max_eq_left (le_max_right _ _)]

/-- **Reading an operand, case by case**, by its first character. -/
theorem wp_evalOperand {eval : Msh MshVar} {Q : Operand → Machine → Prop}
    {E : Stop → Machine → Prop}
    (hnumber : isdigit (skipped s).cur = true →
      wp numberLiteral (fun v => Q (.left v)) E (skipped s))
    (hstring : (skipped s).cur = chr '"' → wp (stringLiteral h) Q E (skipped s))
    (hvar : isalpha (skipped s).cur = true →
      wp (variableRef h) (fun v => Q (.left v)) E (skipped s))
    (hempty : (skipped s).cur ≠ chr '"' → isalpha (skipped s).cur = false →
      Q (.left MshVar.zero) (skipped s)) : wp (evalOperand h eval) Q E s := by
  rw [evalOperand, wp_bind, wp_skipWhitespace, wp_bind, wp_peek, seen_skipped]
  simp only [wp_ite]
  refine ⟨fun hd => wp_bind.mpr (hnumber hd), fun _ => ⟨hstring, fun hq =>
    ⟨fun ha => wp_bind.mpr (hvar ha), fun ha => ?_⟩⟩⟩
  have hno : isalpha (skipped s).cur = false := Bool.eq_false_iff.mpr ha
  exact (wp_of_ok (builtinWord_eq h eval hno)).mpr (hempty hq hno)

theorem skipped_seen (s : Machine) : skipped s.seen = skipped s := by
  have hle : s.pc ≤ scan isspace s.code s.pc := le_scan
  have hreach : max (max s.reach s.pc) (scan isspace s.code s.pc)
      = max s.reach (scan isspace s.code s.pc) := by omega
  change { s with pc := _, reach := max (max s.reach s.pc) (scan isspace s.code s.pc) } = _
  rw [hreach]
  rfl

/-- The cursor behind the identifier a statement starts with, and the blanks there. -/
def named (s : Machine) : Machine := skipped (parsed (skipped s))

/-- The cursor behind the `=` of an assignment. -/
def rhs (s : Machine) : Machine := { named s with pc := (named s).pc + 1 }

/-- The cursor behind the character the catch-all steps over. -/
def stepped (s : Machine) : Machine := { skipped s with pc := (skipped s).pc + 1 }

@[simp] theorem named_hadError : (named s).hadError = s.hadError := by
  rw [named, skipped_hadError, parsed_hadError, skipped_hadError]

@[simp] theorem rhs_hadError : (rhs s).hadError = s.hadError := by rw [rhs, named_hadError]

@[simp] theorem stepped_hadError : (stepped s).hadError = s.hadError := rfl

/-- **Storing a value**: into the entry found, into a new one, or nowhere. -/
def assigned (u : Machine) (v : MshVar) : Machine :=
  match u.lookup u.identBuf with
  | some i => u.setVar i v
  | none =>
    if u.varCount < 64 then { u with varCount := u.varCount + 1 }.setVar u.varCount v
    else { u with hadError := true }

theorem assignVar_eq (v : MshVar) (u : Machine) : assignVar v u = .ok () (assigned u v) := by
  rw [assignVar, assignSlot, bind_assoc, bind_of_ok (show findVar u = .ok _ u from rfl), assigned]
  cases u.lookup u.identBuf with
  | some i => rfl
  | none =>
    rw [bind_assoc, bind_of_ok (show (get : Msh Machine) u = .ok u u from rfl)]
    by_cases hc : u.varCount < 64
    · rw [if_pos hc, if_pos hc, Machine.setVar, ← Function.update_idem]
      rfl
    · rw [if_neg hc, if_neg hc]
      rfl

/-- **A statement, case by case.** -/
theorem wp_plainStmt {Q : Unit → Machine → Prop} {E : Stop → Machine → Prop} :
    wp (plainStmt h) Q E s.seen ↔
      (isalpha (skipped s).cur = true →
        ((named s).cur = chr '=' → wp (evalExpr h) (fun v u =>
          if u.hadError = true then Q () u else Q () (assigned u v)) E (rhs s)) ∧
        ((named s).cur ≠ chr '=' → Q () (named s))) ∧
      (isalpha (skipped s).cur = false → Q () (stepped s)) := by
  have hstore (v : MshVar) (u : Machine) :
      wp (get >>= fun s => if (!s.hadError) = true then assignVar v else pure ()) Q E u ↔
        if u.hadError = true then Q () u else Q () (assigned u v) := by
    rw [wp_bind, wp_get]
    cases u.hadError
    · exact wp_of_ok (assignVar_eq v u)
    · exact Iff.rfl
  have hident : wp (identStmt h) Q E (skipped s) ↔
      ((named s).cur = chr '=' → wp (evalExpr h) (fun v u =>
        if u.hadError = true then Q () u else Q () (assigned u v)) E (rhs s)) ∧
      ((named s).cur ≠ chr '=' → Q () (named s)) := by
    rw [identStmt, wp_bind, wp_parseIdent, wp_bind, wp_skipWhitespace, wp_bind, wp_peek,
      seen_skipped, wp_ite, wp_bind, wp_advance, wp_bind]
    simp only [hstore]
    rfl
  rw [plainStmt, wp_bind, wp_skipWhitespace, skipped_seen, wp_bind, wp_peek, seen_skipped, wp_ite,
    hident, Bool.not_eq_true]
  rfl

/-- **What a statement can do**: step over one character, do nothing behind an identifier, fail in
an expression, or store its value. -/
inductive Effect (h : Host) (s : Machine) : Machine → Prop
  | skip (ha : isalpha (skipped s).cur = false) : Effect h s (stepped s)
  | name (ha : isalpha (skipped s).cur = true) (hc : (named s).cur ≠ chr '=') :
      Effect h s (named s)
  | fail {v : MshVar} {u : Machine} (ha : isalpha (skipped s).cur = true)
      (hc : (named s).cur = chr '=') (hev : evalExpr h (rhs s) = .ok v u)
      (he : u.hadError = true) : Effect h s u
  | store {v : MshVar} {u : Machine} (ha : isalpha (skipped s).cur = true)
      (hc : (named s).cur = chr '=') (hev : evalExpr h (rhs s) = .ok v u)
      (he : u.hadError = false) : Effect h s (assigned u v)

/-- **A statement that returns has done one of the four; one that stops has stopped in its
expression.** -/
theorem wp_effect : wp (plainStmt h) (fun _ => Effect h s)
    (fun e t => isalpha (skipped s).cur = true ∧ (named s).cur = chr '=' ∧
      evalExpr h (rhs s) = .error e t) s.seen := by
  refine wp_plainStmt.mpr ⟨fun ha => ⟨fun hc => ?_, .name ha⟩, .skip⟩
  refine wp_intro (fun v u hev => ?_) fun e t hev => ⟨ha, hc, hev⟩
  cases he : u.hadError with
  | true => exact (if_pos rfl).mpr (.fail ha hc hev he)
  | false => exact (if_neg Bool.false_ne_true).mpr (.store ha hc hev he)

theorem Step.effect (hst : Step h s t) : Effect h s t := (wp_of_ok hst.plain).mp wp_effect

theorem Effect.step (hc : s.cur ≠ 0) (he : s.hadError = false) (heff : Effect h s t) :
    Step h s t := by
  have hrun : wp (plainStmt h) (fun _ u => u = t) (fun _ _ => False) s.seen := by
    refine wp_plainStmt.mpr ?_
    cases heff with
    | skip ha => exact ⟨fun ha' => absurd (ha'.symm.trans ha) Bool.noConfusion, fun _ => rfl⟩
    | name ha hc =>
      exact ⟨fun _ => ⟨fun hc' => absurd hc' hc, fun _ => rfl⟩,
        fun ha' => absurd (ha.symm.trans ha') Bool.noConfusion⟩
    | fail ha hc hev he =>
      refine ⟨fun _ => ⟨fun _ => (wp_of_ok hev).mpr (by rw [if_pos he]), fun hc' => absurd hc hc'⟩,
        fun ha' => absurd (ha.symm.trans ha') Bool.noConfusion⟩
    | store ha hc hev he =>
      refine ⟨fun _ => ⟨fun _ => (wp_of_ok hev).mpr (by rw [he, if_neg Bool.false_ne_true]),
          fun hc' => absurd hc hc'⟩,
        fun ha' => absurd (ha.symm.trans ha') Bool.noConfusion⟩
  obtain ⟨_, _, hr, rfl⟩ := wp_returns.mp hrun
  exact .of_plain hc he hr

/-- On a letter, `parse_ident` moves on. -/
theorem lt_parsed (ha : isalpha s.cur = true) : s.pc < (parsed s).pc := by
  have hid : isIdent s.cur = true := by simp [isIdent, isalnum, ha]
  change s.pc < scan isIdent s.code (skipped s).pc
  rw [skipped_of_isalpha ha, scan_succ (d := 0) hid isIdent_zero]
  exact le_scan

/-- Up to behind its identifier, a statement is evaluation. -/
theorem frame_named (ha : isalpha (skipped s).cur = true) : Frame s (named s) :=
  trans_of Frame (trans_of Frame (frame_skipped s) (frame_parsed ha)) (frame_skipped _)

theorem lt_named (ha : isalpha (skipped s).cur = true) : s.pc < (named s).pc :=
  (frame_skipped s).pc_le.trans_lt ((lt_parsed ha).trans_le (frame_skipped _).pc_le)

/-- Up to behind its `=`, an assignment is evaluation. -/
theorem frame_rhs (ha : isalpha (skipped s).cur = true) (hc : (named s).cur = chr '=') :
    Frame s (rhs s) :=
  trans_of Frame (frame_named ha)
    (frame_advance fun h0 => absurd (hc.symm.trans h0) (by decide))

/-- Up to its value, an assignment is evaluation. -/
theorem frame_value {v : MshVar} (ha : isalpha (skipped s).cur = true)
    (hc : (named s).cur = chr '=') (hev : evalExpr h (rhs s) = .ok v u) : Frame s u :=
  trans_of Frame (frame_rhs ha hc) ((frame_evalExpr h).ok hev)

section Store

variable {v : MshVar}

/-- **Storing, case by case**: an entry is overwritten, an entry is added, or the table is full and
stays as it is. -/
theorem assigned_cases (u : Machine) (v : MshVar) :
    (∃ i, u.lookup u.identBuf = some i ∧ assigned u v = u.setVar i v) ∨
    (u.lookup u.identBuf = none ∧ u.varCount < 64 ∧
      assigned u v = { u with varCount := u.varCount + 1 }.setVar u.varCount v) ∨
    (u.lookup u.identBuf = none ∧ 64 ≤ u.varCount ∧
      assigned u v = { u with hadError := true }) := by
  rw [assigned]
  cases hl : u.lookup u.identBuf with
  | some i => exact .inl ⟨i, rfl, rfl⟩
  | none =>
    by_cases hc : u.varCount < 64
    · exact .inr (.inl ⟨rfl, hc, if_pos hc⟩)
    · exact .inr (.inr ⟨rfl, by omega, if_neg hc⟩)

@[simp] theorem assigned_code : (assigned u v).code = u.code := by
  obtain ⟨_, _, h⟩ | ⟨_, _, h⟩ | ⟨_, _, h⟩ := assigned_cases u v <;> rw [h] <;> rfl

@[simp] theorem assigned_pc : (assigned u v).pc = u.pc := by
  obtain ⟨_, _, h⟩ | ⟨_, _, h⟩ | ⟨_, _, h⟩ := assigned_cases u v <;> rw [h] <;> rfl

@[simp] theorem assigned_reach : (assigned u v).reach = u.reach := by
  obtain ⟨_, _, h⟩ | ⟨_, _, h⟩ | ⟨_, _, h⟩ := assigned_cases u v <;> rw [h] <;> rfl

/-- A store fails if the name is new and the table is full. -/
theorem assigned_eq_of_error (he : u.hadError = false) (he' : (assigned u v).hadError = true) :
    u.lookup u.identBuf = none ∧ 64 ≤ u.varCount ∧ assigned u v = { u with hadError := true } := by
  obtain ⟨_, _, h⟩ | ⟨_, _, h⟩ | hfull := assigned_cases u v
  · rw [h] at he'
    exact absurd (he.symm.trans he') Bool.noConfusion
  · rw [h] at he'
    exact absurd (he.symm.trans he') Bool.noConfusion
  · exact hfull

/-- …and has written nothing. -/
theorem assigned_of_error (he : u.hadError = false) (he' : (assigned u v).hadError = true) :
    (assigned u v).vars = u.vars ∧ (assigned u v).varCount = u.varCount := by
  rw [(assigned_eq_of_error he he').2.2]
  exact ⟨rfl, rfl⟩

end Store

namespace Effect

variable (heff : Effect h s t)
include heff

theorem code : t.code = s.code := by
  cases heff with
  | skip => rfl
  | name ha => exact (frame_named ha).code
  | fail ha hc hev => exact (frame_value ha hc hev).code
  | store ha hc hev =>
    rw [assigned_code]
    exact (frame_value ha hc hev).code

/-- **Every statement moves the cursor on.** -/
theorem pc_lt : s.pc < t.pc := by
  cases heff with
  | skip => exact Nat.lt_succ_of_le le_scan
  | name ha => exact lt_named ha
  | fail ha hc hev =>
    exact (lt_named ha).trans_le ((Nat.le_succ _).trans ((frame_evalExpr h).ok hev).pc_le)
  | store ha hc hev =>
    rw [assigned_pc]
    exact (lt_named ha).trans_le ((Nat.le_succ _).trans ((frame_evalExpr h).ok hev).pc_le)

end Effect

/-! ## Calls -/

/-- The states of the loop heads a call runs through. -/
def Head (h : Host) (code : List Byte) (s₀ s : Machine) : Prop :=
  ∃ l, Steps (Step h) (enter code s₀) l s

theorem code_of_steps {l : List (Machine × Machine)} (hl : Steps (Step h) s l t) :
    t.code = s.code :=
  hl.keeps (P := fun u => u.code = s.code) (fun _ _ hst hu => hst.effect.code.trans hu) rfl

/-- A round of the main loop. -/
theorem mshLoop_succ (n : ℕ) : mshLoop (plainStmt h) (n + 1) s =
    if s.cur ≠ 0 ∧ s.hadError = false then (plainStmt h >>= fun _ => mshLoop (plainStmt h) n) s.seen
    else .ok () s.seen := by
  have hloop : mshLoop (plainStmt h) (n + 1) s = (if s.cur ≠ 0 ∧ (!s.hadError) = true then
      (plainStmt h >>= fun _ => mshLoop (plainStmt h) n) else pure ()) s.seen := rfl
  rw [hloop]
  simp only [Bool.not_eq_true']
  split <;> rfl

/-- A loop that is left has run through a head after the other. -/
theorem mshLoop_ok {n : ℕ} (hr : mshLoop (plainStmt h) n s = .ok () u) :
    ∃ l t, Steps (Step h) s l t ∧ Final t ∧ u = t.seen := by
  induction n generalizing s with
  | zero => cases hr
  | succ n ih =>
    rw [mshLoop_succ] at hr
    by_cases hg : s.cur ≠ 0 ∧ s.hadError = false
    · rw [if_pos hg] at hr
      have hrun := (wp_of_ok (Q := fun _ u' => u' = u) (E := fun _ _ => False) hr).mpr rfl
      obtain ⟨_, t, hst, htl⟩ := wp_returns.mp (wp_bind.mp hrun)
      obtain ⟨_, _, hlt, rfl⟩ := wp_returns.mp htl
      obtain ⟨l, v, hl, hf, hu⟩ := ih hlt
      exact ⟨_, v, .cons (.of_plain hg.1 hg.2 hst) hl, hf, hu⟩
    · rw [if_neg hg] at hr
      injection hr with _ hu
      exact ⟨[], s, .nil s, final_iff.mpr hg, hu.symm⟩

/-- A loop that stops has done so at a head, or in the statement there. -/
theorem mshLoop_error {n : ℕ} {e : Stop} (hr : mshLoop (plainStmt h) n s = .error e u) :
    ∃ l t, Steps (Step h) s l t ∧
      (u = t ∨ (t.cur ≠ 0 ∧ t.hadError = false ∧ plainStmt h t.seen = .error e u)) := by
  induction n generalizing s with
  | zero =>
    injection hr with _ hu
    exact ⟨[], s, .nil s, .inl hu.symm⟩
  | succ n ih =>
    rw [mshLoop_succ] at hr
    by_cases hg : s.cur ≠ 0 ∧ s.hadError = false
    · rw [if_pos hg] at hr
      cases hst : plainStmt h s.seen with
      | ok a t =>
        rw [bind_of_ok hst] at hr
        obtain ⟨l, v, hl, hv⟩ := ih hr
        exact ⟨_, v, .cons (.of_plain hg.1 hg.2 hst) hl, hv⟩
      | error e' t =>
        rw [bind_of_error hst] at hr
        cases hr
        exact ⟨[], s, .nil s, .inr ⟨hg.1, hg.2, hst⟩⟩
    · rw [if_neg hg] at hr
      cases hr

theorem mshExecute_succ (n : ℕ) (code : List Byte) (s : Machine) : mshExecute h (n + 1) code s =
    (mshLoop (plainStmt h) (n + 1) >>= fun _ => do return !(← get).hadError) (enter code s) := by
  rw [mshExecute, stmt_eq]
  rfl

variable {code : List Byte} {n : ℕ} {b : Bool}

/-- **A call that returns has run its statements, from the first head to a final one.** -/
theorem mshExecute_ok (hr : mshExecute h n code s = .ok b u) :
    ∃ l t, Steps (Step h) (enter code s) l t ∧ Final t ∧ b = !t.hadError ∧ u = t.seen := by
  cases n with
  | zero => cases hr
  | succ n =>
    rw [mshExecute_succ] at hr
    have hrun := (wp_of_ok (Q := fun b' u' => b' = b ∧ u' = u) (E := fun _ _ => False) hr).mpr
      ⟨rfl, rfl⟩
    obtain ⟨_, v, hl, hb, hu⟩ := wp_returns.mp (wp_bind.mp hrun)
    obtain ⟨l, t, hsteps, hf, rfl⟩ := mshLoop_ok hl
    exact ⟨l, t, hsteps, hf, hb.symm, hu.symm⟩

/-- **A call that stops has done so at a head, or in the statement there.** -/
theorem mshExecute_error {e : Stop} (hn : n ≠ 0) (hr : mshExecute h n code s = .error e u) :
    ∃ l t, Steps (Step h) (enter code s) l t ∧
      (u = t ∨ (t.cur ≠ 0 ∧ t.hadError = false ∧ plainStmt h t.seen = .error e u)) := by
  obtain ⟨n, rfl⟩ := Nat.exists_eq_succ_of_ne_zero hn
  rw [mshExecute_succ] at hr
  cases hl : mshLoop (plainStmt h) (n + 1) (enter code s) with
  | ok a t =>
    rw [bind_of_ok hl] at hr
    cases hr
  | error e' t =>
    rw [bind_of_error hl] at hr
    cases hr
    exact mshLoop_error hl

/-- **A call returns, traps or hangs**: its fuel does not run out. -/
theorem mshLoop_real {n : ℕ} {s : Machine} (hn : Deep n s) :
    wp (mshLoop (plainStmt h) n) (fun _ _ => True) (fun e _ => e.Real) s := by
  induction n generalizing s with
  | zero => exact absurd hn.1 (Nat.lt_irrefl 0)
  | succ n ih =>
    rw [wp, mshLoop_succ]
    by_cases hg : s.cur ≠ 0 ∧ s.hadError = false
    · rw [if_pos hg]
      refine wp_bind.mpr (wp_mono wp_effect (fun _ t heff => ih ?_) fun e t ht => ?_)
      · have hlen := lt_length_of_cur hg.1
        have hpc := heff.pc_lt
        obtain ⟨_, hlt⟩ := hn
        refine ⟨by omega, ?_⟩
        rw [heff.code]
        omega
      · exact ((frame_evalExpr h).error ht.2.2).1
    · rw [if_neg hg]
      trivial

theorem mshExecute_real (hn : code.length < n) :
    wp (mshExecute h n code) (fun _ _ => True) (fun e _ => e.Real) s := by
  obtain ⟨n, rfl⟩ := Nat.exists_eq_add_of_lt hn
  rw [wp, mshExecute_succ]
  refine wp_bind.mpr (wp_mono (mshLoop_real ⟨Nat.succ_pos _, ?_⟩) (fun _ _ _ => ?_) fun _ _ => id)
  · change code.length < code.length + n + 1 + 0
    omega
  · trivial

/-! ## Sessions -/

/-- `msh_init`, then any calls of `msh_execute`; `l` lists the statements they run. -/
inductive Session (h : Host) : List (Machine × Machine) → Machine → Prop
  | init (s : Machine) : Session h [] (mshInit s)
  | call {l l' : List (Machine × Machine)} {s t : Machine} (hs : Session h l s) (code : List Byte)
      (hl : Steps (Step h) (enter code s) l' t) (hf : Final t) : Session h (l ++ l') t.seen

/-- **A call that returns goes on with the session.** -/
theorem Session.execute {l : List (Machine × Machine)} (hs : Session h l s)
    (hr : mshExecute h n code s = .ok b u) : ∃ l', Session h (l ++ l') u := by
  obtain ⟨l', t, hl, hf, _, rfl⟩ := mshExecute_ok hr
  exact ⟨l', hs.call code hl hf⟩

/-- **The invariant rule of sessions**: `P` is about the table, so calls start with what the last
one left. -/
theorem Session.keeps {P : Machine → Prop} {l : List (Machine × Machine)} (hs : Session h l s)
    (hinit : ∀ s, P (mshInit s)) (henter : ∀ code s, P s → P (enter code s))
    (hseen : ∀ s, P s → P s.seen) (hstep : ∀ s t, Step h s t → P s → P t) : P s := by
  induction hs with
  | init s => exact hinit s
  | call _ code hl _ ih => exact hseen _ (hl.keeps hstep (henter code _ ih))

/-! ## Errors -/

end Msh

end HuskyKernel
