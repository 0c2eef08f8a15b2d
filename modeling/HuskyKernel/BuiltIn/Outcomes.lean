import HuskyKernel.BuiltIn.Run
import HuskyKernel.BuiltIn.Stops

/-!
# BuiltIn/Outcomes — how a call of `msh_execute` comes out

A call runs one statement after the other, and of those the assignments evaluate: `headsOf` lists
the heads of its loop (`mem_headsOf`), `callMoves` the moves of its evaluations.  The call returns
if every move does (`mshExecute_ok_iff`), and what it returns is `false` if one of them raises an
error or one of its values finds no room in the table (`mshExecute_false_iff`).
-/

namespace HuskyKernel

open Wp Scan Msh

/-! ## Errors of a move -/

/-- The move raises an error: its literal is not closed, no variable has its name, or its division
has no quotient. -/
def Move.Raises (h : Host) : Move → Prop
  | operand s =>
    ((skipped s).cur = chr '"' ∧
      s.code.getD (scan inString s.code ((skipped s).pc + 1)) 0 ≠ chr '"') ∨
    (isalpha (skipped s).cur = true ∧ s.entry? = none)
  | operation o left right s => o.result h (left.read s.mem) (right.read s.mem) = .error

instance {r : OpResult} : Decidable (r = .error) :=
  match r with
  | .error => .isTrue rfl
  | .number _ => .isFalse OpResult.noConfusion
  | .quotient .. => .isFalse OpResult.noConfusion
  | .text _ => .isFalse OpResult.noConfusion
  | .nothing => .isFalse OpResult.noConfusion

instance {h : Host} : DecidablePred (Move.Raises h)
  | .operand _ => inferInstanceAs (Decidable ((_ ∧ _) ∨ (_ ∧ _)))
  | .operation .. => inferInstanceAs (Decidable (_ = OpResult.error))

section Errors

variable {h : Host} {n : ℕ} {s t : Machine} {v left right : MshVar} {o : Op} {ms : List Move}
  {r : EStateM.Result Stop Machine MshVar}

/-- `m` raises no error, and clears none. -/
def Silent {α : Type} (m : Msh α) (s : Machine) : Prop :=
  wp m (fun _ t => t.hadError = s.hadError) (fun _ _ => True) s

theorem silent_strdup : Silent (strdup h v) s := by
  rw [Silent, strdup, wp_bind, wp_emit, wp_ite]
  refine ⟨fun _ => rfl, fun _ => wp_bind.mpr (wp_cstrAt.mpr ⟨fun bs _ => ?_, fun _ => trivial⟩)⟩
  rw [wp_bind, wp_malloc, wp_ite]
  exact ⟨fun _ => rfl, fun _ => rfl⟩

theorem silent_concat : Silent (concat h left right) s := by
  rw [Silent, concat, wp_bind]
  refine wp_strlen_ends (fun l _ => ?_) fun _ => trivial
  refine wp_bind.mpr (wp_strlen_ends (fun r _ => ?_) fun _ => trivial)
  rw [wp_bind, wp_malloc, wp_bind, strcpy, wp_bind, wp_emit, wp_bind, wp_emit]
  refine wp_copyLoop_ends (fun m _ => ?_) fun _ => trivial
  rw [wp_bind, strcat, wp_bind, wp_emit, wp_bind, wp_emit]
  exact wp_copyLoop_ends (fun _ _ => rfl) fun _ => trivial

/-- A literal raises an error if it is not closed. -/
theorem wp_stringLiteral_raises (hq : (skipped s).cur = chr '"') :
    wp (stringLiteral h) (fun _ t => t.hadError = true ↔
      s.hadError = true ∨ (Move.operand s).Raises h) (fun _ _ => True) (skipped s) := by
  have ha : ¬ isalpha (skipped s).cur = true := by rw [hq]; decide
  have hraises : (Move.operand s).Raises h ↔
      s.code.getD (scan inString s.code ((skipped s).pc + 1)) 0 ≠ chr '"' :=
    ⟨fun hm => hm.elim And.right fun hvar => absurd hvar.1 ha, fun hopen => .inl ⟨hq, hopen⟩⟩
  rw [hraises, stringLiteral, wp_bind, wp_advance, wp_bind, wp_get, wp_bind, wp_scanCode, wp_bind,
    wp_peek, wp_ite]
  refine ⟨fun hopen => ?_, fun hclosed => ?_⟩
  · exact iff_of_true rfl (.inr hopen)
  · rw [wp_bind, copyLiteral, wp_bind, wp_get, wp_bind, wp_malloc]
    exact ⟨.inl, fun hs => hs.resolve_right fun hopen => hopen (not_not.mp hclosed)⟩

/-- A name raises one if no variable has it. -/
theorem wp_variableRef_raises (hq : (skipped s).cur ≠ chr '"')
    (ha : isalpha (skipped s).cur = true) :
    wp (variableRef h) (fun _ t => t.hadError = true ↔
      s.hadError = true ∨ (Move.operand s).Raises h) (fun _ _ => True) (skipped s) := by
  have hentry {i : Option ℕ} (hl : (skipped s).lookup (parsed (skipped s)).identBuf = i) :
      s.lookup (parsed (skipped s)).identBuf = i := hl
  have hsame (i : ℕ) (b : Bool) : (b = s.hadError) →
      (b = true ↔ s.hadError = true ∨ (some i).map s.vars = none) := by simp +contextual
  simp only [Move.Raises, hq, false_and, false_or, Machine.entry?, ha, if_true, true_and]
  refine wp_variableRef h (fun hl => ?_) (fun i hl _ => ?_) fun i hl _ => ?_
  all_goals rw [hentry hl]
  · exact iff_of_true rfl (.inr rfl)
  · exact wp_mono silent_strdup (fun _ t ht => hsame i _ ht) fun _ _ => id
  · exact hsame i _ rfl

theorem wp_operand_raises : wp ((Move.operand s).act h)
    (fun _ t => t.hadError = true ↔ s.hadError = true ∨ (Move.operand s).Raises h)
    (fun _ _ => True) s := by
  have hno (hq : (skipped s).cur ≠ chr '"') (ha : isalpha (skipped s).cur = false) :
      s.hadError = true ↔ s.hadError = true ∨ (Move.operand s).Raises h := by
    simp [Move.Raises, hq, ha]
  exact wp_operand wp_stringLiteral_raises wp_variableRef_raises hno hno

theorem wp_operation_raises : wp (operate h o left right)
    (fun _ t => t.hadError = true ↔
      s.hadError = true ∨ (Move.operation o left right s).Raises h) (fun _ _ => True) s := by
  rw [operate, wp_bind]
  refine wp_mono wp_unify (fun p t hu => ?_) fun _ _ _ => trivial
  obtain ⟨hu, rfl⟩ := hu
  simp only [applyOp_eq o hu.toUnified, Move.Raises]
  cases o.result h (left.read s.mem) (right.read s.mem) with
  | number w => simp [perform]
  | quotient x y => simp [perform, wp_idiv]
  | text bs => exact wp_bind.mpr (wp_mono silent_concat (fun _ t ht => by simp [ht]) fun _ _ => id)
  | nothing => simp [perform]
  | error => simp [perform]

theorem wp_act_raises (h : Host) (m : Move) : wp (m.act h)
    (fun _ t => t.hadError = true ↔ m.start.hadError = true ∨ m.Raises h) (fun _ _ => True)
    m.start := by
  cases m with
  | operand s => exact wp_operand_raises
  | operation o left right s => exact (wp_map _).mpr wp_operation_raises

/-- **An evaluation ends with an error** if there was one, or one of its moves raises one. -/
theorem Evaluates.hadError_iff (hev : Evaluates h n s ms r) (hr : r = .ok v t) :
    t.hadError = true ↔ s.hadError = true ∨ ∃ m ∈ ms, m.Raises h := by
  have hact {m : Move} {o : Operand} {u : Machine} (hm : m.run h = .ok o u) :
      u.hadError = true ↔ m.start.hadError = true ∨ m.Raises h :=
    (wp_of_ok hm).mp (wp_act_raises h m)
  induction hev generalizing v t with
  | deep | stop | inner => cases hr
  | done hs | last hs ho =>
    cases hr
    simp only [List.mem_singleton, exists_eq_left]
    exact hact hs
  | @op n s a u w right ms hs ho _ ih =>
    have hfirst : a.hadError = true ↔ s.hadError = true ∨ (Move.operand s).Raises h := hact hs
    have hright : u.hadError = true ↔ a.hadError = true ∨ ∃ m ∈ ms, m.Raises h := ih rfl
    rw [hact (run_operation_ok hr), Move.start, hright, hfirst]
    simp only [List.mem_cons, List.mem_append, List.not_mem_nil, or_false, or_and_right, exists_or,
      exists_eq_left, or_assoc]

end Errors

/-! ## Statements -/

namespace Msh

/-- The statement at the head is an assignment. -/
def AtAssignment (s : Machine) : Prop := isalpha (skipped s).cur = true ∧ (named s).cur = chr '='

instance : DecidablePred AtAssignment := fun _ => inferInstanceAs (Decidable (_ ∧ _))

variable (h : Host)

/-- The moves of a statement. -/
def stmtMoves (s : Machine) : List Move := if AtAssignment s then movesOf h (rhs s) else []

/-- A value comes to a table that has no room for it: all entries are taken, and none has the name
that `parse_ident` read last. -/
def NoRoom (s : Machine) : Prop :=
  AtAssignment s ∧
    (after (evalExpr h) (rhs s)).lookup (after (evalExpr h) (rhs s)).identBuf = none ∧
    64 ≤ (after (evalExpr h) (rhs s)).varCount

instance : DecidablePred (NoRoom h) := fun _ => inferInstanceAs (Decidable (_ ∧ _ ∧ _))

/-- The statement raises an error, or its value finds no room. -/
def Fails (s : Machine) : Prop := (∃ m ∈ stmtMoves h s, m.Raises h) ∨ NoRoom h s

instance : DecidablePred (Fails h) := fun _ => inferInstanceAs (Decidable (_ ∨ _))

variable {h} {s t u : Machine}

/-- A statement returns if all its moves do. -/
theorem plainStmt_ok_iff :
    (∃ t, plainStmt h s.seen = .ok () t) ↔ ∀ m ∈ stmtMoves h s, m.Ends h := by
  by_cases has : AtAssignment s
  · rw [stmtMoves, if_pos has, ← evalExpr_ok_iff]
    constructor
    · rintro ⟨t, hr⟩
      cases (wp_of_ok hr).mp wp_effect with
      | skip ha => exact absurd (has.1.symm.trans ha) Bool.noConfusion
      | name _ hc => exact absurd has.2 hc
      | fail _ _ hev | store _ _ hev => exact ⟨_, _, hev⟩
    · rintro ⟨v, u, hev⟩
      cases hr : plainStmt h s.seen with
      | ok a t => exact ⟨t, rfl⟩
      | error e t => cases hev.symm.trans ((wp_of_error hr).mp wp_effect).2.2
  · rw [stmtMoves, if_neg has]
    refine iff_of_true ?_ fun m hm => absurd hm List.not_mem_nil
    cases hr : plainStmt h s.seen with
    | ok a t => exact ⟨t, rfl⟩
    | error e t =>
      have hstop := (wp_of_error hr).mp wp_effect
      exact absurd ⟨hstop.1, hstop.2.1⟩ has

/-- A store fails if there is no room. -/
theorem assigned_hadError {v : MshVar} (he : u.hadError = false) :
    (assigned u v).hadError = true ↔ u.lookup u.identBuf = none ∧ 64 ≤ u.varCount := by
  obtain ⟨i, hl, h'⟩ | ⟨_, hlt, h'⟩ | ⟨hl, hle, h'⟩ := assigned_cases u v
  · rw [h', hl]
    simp [Machine.setVar, he]
  · rw [h']
    simp [Machine.setVar, he, hlt]
  · rw [h']
    simp [hl, hle]

/-- **A statement ends with an error** if it fails. -/
theorem Step.hadError_iff (hst : Step h s t) : t.hadError = true ↔ Fails h s := by
  have heval {v : MshVar} {u : Machine} (hev : evalExpr h (rhs s) = .ok v u) :
      u.hadError = true ↔ ∃ m ∈ movesOf h (rhs s), m.Raises h := by
    rw [(evaluates_evalExpr h (rhs s)).hadError_iff hev, rhs_hadError, hst.err]
    exact or_iff_right Bool.false_ne_true
  have hother (has : ¬ AtAssignment s) : ¬ Fails h s := by
    rw [Fails, stmtMoves, if_neg has]
    rintro (⟨m, hm, -⟩ | hroom)
    · exact absurd hm List.not_mem_nil
    · exact has hroom.1
  have hclear : ¬ s.hadError = true := Bool.eq_false_iff.mp hst.err
  cases hst.effect with
  | skip ha =>
    have has : ¬ AtAssignment s := fun has => absurd (has.1.symm.trans ha) Bool.noConfusion
    rw [stepped_hadError]
    exact iff_of_false hclear (hother has)
  | name ha hc =>
    have has : ¬ AtAssignment s := fun has => hc has.2
    rw [named_hadError]
    exact iff_of_false hclear (hother has)
  | fail ha hc hev he =>
    have has : AtAssignment s := ⟨ha, hc⟩
    rw [Fails, stmtMoves, if_pos has]
    exact iff_of_true he (.inl ((heval hev).mp he))
  | @store v u ha hc hev he =>
    have has : AtAssignment s := ⟨ha, hc⟩
    have hnone : ¬ ∃ m ∈ movesOf h (rhs s), m.Raises h := fun hm => by
      have herr' := (heval hev).mpr hm
      rw [he] at herr'
      cases herr'
    have hafter : after (evalExpr h) (rhs s) = u := by rw [after, hev]
    rw [assigned_hadError he, Fails, stmtMoves, if_pos has, or_iff_right hnone, NoRoom, hafter]
    exact (and_iff_right has).symm

/-! ## Calls -/

/-- The heads of at most `n` statements. -/
def heads (h : Host) : ℕ → Machine → List Machine
  | 0, _ => []
  | n + 1, s =>
    if s.cur ≠ 0 ∧ s.hadError = false then
      s :: match plainStmt h s.seen with
        | .ok _ t => heads h n t
        | .error _ _ => []
    else []

/-- The heads a call runs statements from. -/
def headsOf (h : Host) (code : List Byte) (s : Machine) : List Machine :=
  heads h (code.length + 1) (enter code s)

/-- The moves of a call. -/
def callMoves (h : Host) (code : List Byte) (s : Machine) : List Move :=
  (headsOf h code s).flatMap (stmtMoves h)

variable {code : List Byte} {k n : ℕ}

theorem Step.deep (hst : Step h s t) (hn : Deep (n + 1) s) : Deep n t := by
  have hlen := lt_length_of_cur hst.cur
  have hpc := hst.effect.pc_lt
  obtain ⟨-, hlt⟩ := hn
  refine ⟨by omega, ?_⟩
  rw [hst.effect.code]
  omega

theorem heads_step (hst : Step h s t) : heads h (n + 1) s = s :: heads h n t := by
  rw [heads, if_pos ⟨hst.cur, hst.err⟩, hst.plain]

theorem heads_final (hf : Final s) : heads h n s = [] := by
  cases n with
  | zero => rfl
  | succ n => rw [heads, if_neg (final_iff.mp hf)]

theorem heads_stop {e : Stop} (hf : ¬ Final s) (hr : plainStmt h s.seen = .error e u) :
    heads h (n + 1) s = [s] := by
  rw [heads, if_pos (not_not.mp fun hg => hf (final_iff.mpr hg)), hr]

/-- **The heads are those that the loop gets to and does not leave.** -/
theorem mem_heads (hn : Deep n s) :
    t ∈ heads h n s ↔ (∃ l, Steps (Step h) s l t) ∧ ¬ Final t := by
  induction n generalizing s with
  | zero => exact absurd hn.1 (Nat.lt_irrefl 0)
  | succ n ih =>
    by_cases hf : Final s
    · rw [heads_final hf]
      refine iff_of_false List.not_mem_nil fun ⟨⟨l, hl⟩, ht⟩ => ?_
      cases hl with
      | nil => exact ht hf
      | cons hst _ => exact hf.not_step _ hst
    · have hg : s.cur ≠ 0 ∧ s.hadError = false := not_not.mp fun hg => hf (final_iff.mpr hg)
      cases hr : plainStmt h s.seen with
      | ok a u =>
        have hst : Step h s u := .of_plain hg.1 hg.2 hr
        rw [heads_step hst, List.mem_cons, ih (hst.deep hn)]
        constructor
        · rintro (rfl | ⟨⟨l, hl⟩, ht⟩)
          · exact ⟨⟨[], .nil _⟩, hf⟩
          · exact ⟨⟨_, .cons hst hl⟩, ht⟩
        · rintro ⟨⟨l, hl⟩, ht⟩
          cases hl with
          | nil => exact .inl rfl
          | cons hsu hl => exact .inr ⟨⟨_, step_rightUnique hst hsu ▸ hl⟩, ht⟩
      | error e u =>
        rw [heads_stop hf hr, List.mem_singleton]
        constructor
        · rintro rfl
          exact ⟨⟨[], .nil _⟩, hf⟩
        · rintro ⟨⟨l, hl⟩, -⟩
          cases hl with
          | nil => rfl
          | cons hsu _ => cases hr.symm.trans hsu.plain

theorem mem_headsOf : t ∈ headsOf h code s ↔ Head h code s t ∧ ¬ Final t :=
  mem_heads ⟨Nat.succ_pos _, Nat.lt_succ_self _⟩

/-- **How the loop comes out**: it returns exactly if every move does, and then with an error if a
statement fails — induction on the heads. -/
theorem mshLoop_outcome (hn : Deep n s) (hk : Deep k s) : wp (mshLoop (plainStmt h) n)
    (fun _ u => (∀ s' ∈ heads h k s, ∀ m ∈ stmtMoves h s', m.Ends h) ∧
      (u.hadError = true ↔ s.hadError = true ∨ ∃ s' ∈ heads h k s, Fails h s'))
    (fun _ _ => ¬ ∀ s' ∈ heads h k s, ∀ m ∈ stmtMoves h s', m.Ends h) s := by
  induction k generalizing n s with
  | zero => exact absurd hk.1 (Nat.lt_irrefl 0)
  | succ k ih =>
    obtain ⟨n, rfl⟩ := Nat.exists_eq_succ_of_ne_zero hn.1.ne'
    rw [wp, mshLoop_succ]
    by_cases hf : Final s
    · rw [if_neg (final_iff.mp hf), heads_final hf]
      refine ⟨fun s' hs' => absurd hs' List.not_mem_nil, .inl, fun hs => hs.resolve_right ?_⟩
      rintro ⟨s', hs', -⟩
      exact List.not_mem_nil hs'
    · have hg : s.cur ≠ 0 ∧ s.hadError = false := not_not.mp fun hg => hf (final_iff.mpr hg)
      rw [if_pos hg]
      refine wp_bind.mpr (wp_intro (fun _ t hr => ?_) fun e t hr => ?_)
      · have hst : Step h s t := .of_plain hg.1 hg.2 hr
        simp only [heads_step hst, List.mem_cons, forall_eq_or_imp, exists_eq_or_imp]
        have hends := plainStmt_ok_iff.mp ⟨t, hr⟩
        refine wp_mono (ih (hst.deep hn) (hst.deep hk)) (fun _ u hu => ⟨⟨hends, hu.1⟩, ?_⟩)
          fun _ _ hu hall => hu hall.2
        rw [hu.2, hst.hadError_iff, hg.2]
        exact (or_iff_right Bool.false_ne_true).symm
      · rw [heads_stop hf hr]
        intro hall
        obtain ⟨t', hr'⟩ := plainStmt_ok_iff.mpr (hall s (List.mem_singleton_self s))
        cases hr.symm.trans hr'

/-- **How a call comes out**: it returns exactly if every move does, and `false` if a statement
fails. -/
theorem mshExecute_outcome (hn : code.length < n) : wp (mshExecute h n code)
    (fun b _ => (∀ m ∈ callMoves h code s, m.Ends h) ∧
      (b = false ↔ ∃ s' ∈ headsOf h code s, Fails h s'))
    (fun _ _ => ¬ ∀ m ∈ callMoves h code s, m.Ends h) s := by
  have hmoves : (∀ m ∈ callMoves h code s, m.Ends h) ↔
      ∀ s' ∈ headsOf h code s, ∀ m ∈ stmtMoves h s', m.Ends h := List.forall_mem_flatMap
  obtain ⟨n, rfl⟩ := Nat.exists_eq_succ_of_ne_zero (Nat.ne_zero_of_lt hn)
  have hdeep {k : ℕ} (hk : code.length < k) : Deep k (enter code s) := ⟨Nat.zero_lt_of_lt hk, hk⟩
  rw [wp, mshExecute_succ, hmoves]
  refine wp_bind.mpr (wp_mono (mshLoop_outcome (hdeep hn) (hdeep (Nat.lt_succ_self _)))
    (fun _ u hu => ⟨hu.1, ?_⟩) fun _ _ => id)
  have herr : (!u.hadError) = false ↔ u.hadError = true := by simp
  exact herr.trans (hu.2.trans (or_iff_right Bool.false_ne_true))

/-- **A call returns `false`** if every move returns, and some statement fails. -/
theorem mshExecute_false_iff (hn : code.length < n) :
    (∃ u, mshExecute h n code s = .ok false u) ↔
      (∀ m ∈ callMoves h code s, m.Ends h) ∧ ∃ s' ∈ headsOf h code s, Fails h s' := by
  have hout := mshExecute_outcome (h := h) (s := s) hn
  rw [wp] at hout
  cases hr : mshExecute h n code s with
  | ok b u =>
    rw [hr] at hout
    rw [and_iff_right hout.1, ← hout.2]
    constructor
    · rintro ⟨_, hu⟩
      exact (EStateM.Result.ok.inj hu).1
    · rintro rfl
      exact ⟨u, rfl⟩
  | error e u =>
    rw [hr] at hout
    refine iff_of_false ?_ fun hfail => hout hfail.1
    rintro ⟨_, hu⟩
    cases hu

end Msh

end HuskyKernel
