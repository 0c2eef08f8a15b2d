import HuskyKernel.BuiltIn.Syntax

/-!
# BuiltIn/Moves — the moves an evaluation is made of

`eval_expr` reads an operand, and if an operator follows evaluates what is behind it and then makes
the operation.  `moves` lists what it has done that way, each with the machine it starts from; a
cursor that steps over blanks and operators is all there is between them (`Evaluates`).  So a
property of an evaluation is a property of its moves: it stops exactly if one of them does
(`Evaluates.error_iff`).
-/

namespace HuskyKernel

open Wp Scan Msh

/-! ## Moves -/

/-- What `eval_expr` does with the operands of an operator. -/
def Msh.operate (h : Host) (o : Op) (left right : MshVar) : Msh MshVar := do
  let (common, l, r) ← unify h left right
  applyOp h o.byte { left with type := common } common l r

/-- An operand read, or an operation made, and the machine before it. -/
inductive Move where
  | operand (s : Machine)
  | operation (o : Op) (left right : MshVar) (s : Machine)

namespace Move

/-- The machine before it. -/
def start : Move → Machine
  | operand s => s
  | operation _ _ _ s => s

/-- What is done.  An operand is read without evaluating anything: the built-in words are out of
reach. -/
def act (h : Host) : Move → Msh Operand
  | operand _ => evalOperand h (throw .outOfFuel)
  | operation o left right _ => Operand.left <$> operate h o left right

/-- How it ends. -/
def run (h : Host) (m : Move) : EStateM.Result Stop Machine Operand := m.act h m.start

/-- The machine behind it. -/
def stop (h : Host) (m : Move) : Machine := after (m.act h) m.start

end Move

/-- Behind an operator. -/
def pastOp (s : Machine) : Machine := { skipped s with pc := (skipped s).pc + 1 }

/-- The moves of an evaluation at most `n` deep. -/
def moves (h : Host) : ℕ → Machine → List Move
  | 0, _ => []
  | n + 1, s => .operand s ::
      match (Move.operand s).run h with
      | .ok (.left v) t =>
        if ho : isOp (skipped t).cur then
          moves h n (pastOp t) ++
            match evalExprN h n (pastOp t) with
            | .ok right u => [.operation ⟨(skipped t).cur, ho⟩ v right u]
            | .error _ _ => []
        else []
      | _ => []

/-- The moves of `eval_expr`. -/
def movesOf (h : Host) (s : Machine) : List Move := moves h (s.code.length + 1) s

/-- An evaluation, its moves and its result. -/
inductive Evaluates (h : Host) :
    ℕ → Machine → List Move → EStateM.Result Stop Machine MshVar → Prop
  | deep (s : Machine) : Evaluates h 0 s [] (.error .outOfFuel s)
  | stop {n : ℕ} {s t : Machine} {e : Stop} (hs : (Move.operand s).run h = .error e t) :
      Evaluates h (n + 1) s [.operand s] (.error e t)
  | done {n : ℕ} {s t : Machine} {v : MshVar} (hs : (Move.operand s).run h = .ok (.done v) t) :
      Evaluates h (n + 1) s [.operand s] (.ok v t)
  | last {n : ℕ} {s t : Machine} {v : MshVar} (hs : (Move.operand s).run h = .ok (.left v) t)
      (ho : isOp (skipped t).cur = false) : Evaluates h (n + 1) s [.operand s] (.ok v (skipped t))
  | inner {n : ℕ} {s t u : Machine} {v : MshVar} {ms : List Move} {e : Stop}
      (hs : (Move.operand s).run h = .ok (.left v) t) (ho : isOp (skipped t).cur = true)
      (hr : Evaluates h n (pastOp t) ms (.error e u)) :
      Evaluates h (n + 1) s (.operand s :: ms) (.error e u)
  | op {n : ℕ} {s t u : Machine} {v right : MshVar} {ms : List Move}
      (hs : (Move.operand s).run h = .ok (.left v) t) (ho : isOp (skipped t).cur = true)
      (hr : Evaluates h n (pastOp t) ms (.ok right u)) :
      Evaluates h (n + 1) s (.operand s :: (ms ++ [.operation ⟨(skipped t).cur, ho⟩ v right u]))
        (operate h ⟨(skipped t).cur, ho⟩ v right u)

variable {h : Host} {n : ℕ} {s t : Machine} {ms : List Move}
  {r : EStateM.Result Stop Machine MshVar}

/-- Reading an operand evaluates nothing. -/
theorem evalOperand_eq_act (eval : Msh MshVar) (s : Machine) :
    evalOperand h eval s = (Move.operand s).run h := by
  rw [Move.run, Move.act, Move.start, evalOperand, evalOperand, bind_of_ok (skipWhitespace_eq s),
    bind_of_ok (skipWhitespace_eq s), bind_of_ok (show peek _ = .ok _ _ from rfl),
    bind_of_ok (show peek _ = .ok _ _ from rfl)]
  split_ifs with hd hq ha
  · rfl
  · rfl
  · rfl
  · have hcur : isalpha (skipped s).seen.cur = false := Bool.eq_false_iff.mpr ha
    rw [builtinWord_eq h _ hcur, builtinWord_eq h _ hcur]

/-- **Reading an operand, case by case.** -/
theorem wp_operand {Q : Operand → Machine → Prop} {E : Stop → Machine → Prop}
    (hstring : (skipped s).cur = chr '"' → wp (stringLiteral h) Q E (skipped s))
    (hvar : (skipped s).cur ≠ chr '"' → isalpha (skipped s).cur = true →
      wp (variableRef h) (fun v => Q (.left v)) E (skipped s))
    (hnumber : (skipped s).cur ≠ chr '"' → isalpha (skipped s).cur = false →
      wp numberLiteral (fun v => Q (.left v)) E (skipped s))
    (hempty : (skipped s).cur ≠ chr '"' → isalpha (skipped s).cur = false →
      Q (.left MshVar.zero) (skipped s)) :
    wp ((Move.operand s).act h) Q E s := by
  refine wp_evalOperand (fun hd => hnumber ?_ ?_) hstring (fun ha => hvar ?_ ha) hempty
  · intro hq
    rw [hq] at hd
    cases hd
  · refine Bool.eq_false_iff.mpr fun ha => ?_
    rw [isdigit_of_isalpha ha] at hd
    cases hd
  · intro hq
    rw [hq] at ha
    cases ha

theorem evalTail_last (eval : Msh MshVar) (v : MshVar) (ho : isOp (skipped t).cur = false) :
    evalTail h eval v t = .ok v (skipped t) := by
  rw [evalTail, bind_of_ok (skipWhitespace_eq t), bind_of_ok (show peek _ = .ok _ _ from rfl),
    if_neg (Bool.eq_false_iff.mp ho), seen_skipped]
  rfl

theorem evalTail_op (eval : Msh MshVar) (v : MshVar) (ho : isOp (skipped t).cur = true) :
    evalTail h eval v t =
      (eval >>= fun right => operate h ⟨(skipped t).cur, ho⟩ v right) (pastOp t) := by
  rw [evalTail, bind_of_ok (skipWhitespace_eq t), bind_of_ok (show peek _ = .ok _ _ from rfl),
    if_pos ho, seen_skipped]
  rfl

/-- **An evaluation is made of its moves** — induction on the depth. -/
theorem evaluates (h : Host) (n : ℕ) (s : Machine) :
    Evaluates h n s (moves h n s) (evalExprN h n s) := by
  induction n generalizing s with
  | zero => exact .deep s
  | succ n ih =>
    have hoperand := evalOperand_eq_act (h := h) (evalExprN h n) s
    rw [evalExprN, moves]
    cases hrun : (Move.operand s).run h with
    | error e t =>
      rw [bind_of_error (hoperand.trans hrun)]
      exact .stop hrun
    | ok o t =>
      rw [bind_of_ok (hoperand.trans hrun)]
      cases o with
      | done v => exact .done hrun
      | left v =>
        cases ho : isOp (skipped t).cur with
        | false =>
          have hno : ¬ isOp (skipped t).cur = true := Bool.eq_false_iff.mp ho
          simp only [evalTail_last _ v ho, dif_neg hno]
          exact .last hrun ho
        | true =>
          have hright := ih (pastOp t)
          simp only [evalTail_op _ v ho, dif_pos ho]
          cases hr : evalExprN h n (pastOp t) with
          | error e u =>
            rw [hr] at hright
            rw [bind_of_error hr, List.append_nil]
            exact .inner hrun ho hright
          | ok right u =>
            rw [hr] at hright
            rw [bind_of_ok hr]
            exact .op hrun ho hright

/-- Behind an operand that no operator follows, an evaluation is over. -/
theorem Evaluates.of_last {v : MshVar} (hev : Evaluates h n s ms r) (hn : 0 < n)
    (hrun : (Move.operand s).run h = .ok (.left v) t) (ho : isOp (skipped t).cur = false) :
    ms = [.operand s] ∧ r = .ok v (skipped t) := by
  cases hev with
  | deep => exact absurd hn (Nat.lt_irrefl 0)
  | stop hs => rw [hrun] at hs; cases hs
  | done hs => rw [hrun] at hs; cases hs
  | last hs ho' =>
    rw [hrun] at hs
    cases hs
    exact ⟨rfl, rfl⟩
  | inner hs ho' hr | op hs ho' hr =>
    rw [hrun] at hs
    cases hs
    exact absurd (ho.symm.trans ho') Bool.noConfusion

/-- Behind an operator it goes on with the right operand. -/
theorem Evaluates.of_op {v : MshVar} (hev : Evaluates h n s ms r) (hn : 0 < n)
    (hrun : (Move.operand s).run h = .ok (.left v) t) (ho : isOp (skipped t).cur = true) :
    ∃ k ms' r', n = k + 1 ∧ Evaluates h k (pastOp t) ms' r' ∧
      ∀ right u, r' = .ok right u →
        ms = .operand s :: (ms' ++ [.operation ⟨(skipped t).cur, ho⟩ v right u]) ∧
        r = operate h ⟨(skipped t).cur, ho⟩ v right u := by
  cases hev with
  | deep => exact absurd hn (Nat.lt_irrefl 0)
  | stop hs => rw [hrun] at hs; cases hs
  | done hs => rw [hrun] at hs; cases hs
  | last hs ho' =>
    rw [hrun] at hs
    cases hs
    exact absurd (ho'.symm.trans ho) Bool.noConfusion
  | inner hs ho' hr =>
    rw [hrun] at hs
    cases hs
    exact ⟨_, _, _, rfl, hr, fun right u hok => by cases hok⟩
  | op hs ho' hr =>
    rw [hrun] at hs
    cases hs
    refine ⟨_, _, _, rfl, hr, fun right u hok => ?_⟩
    cases hok
    exact ⟨rfl, rfl⟩

/-! ## From the moves to the evaluation -/

theorem run_operation_ok {o : Op} {left right v : MshVar}
    (hr : operate h o left right s = .ok v t) :
    (Move.operation o left right s).run h = .ok (.left v) t := map_of_ok hr

theorem run_operation_error {o : Op} {left right : MshVar} {e : Stop}
    (hr : operate h o left right s = .error e t) :
    (Move.operation o left right s).run h = .error e t := map_of_error hr

theorem run_operation_error_iff {o : Op} {left right : MshVar} {e : Stop} :
    (Move.operation o left right s).run h = .error e t ↔
      operate h o left right s = .error e t := by
  cases hr : operate h o left right s with
  | ok v u =>
    rw [run_operation_ok hr]
    exact iff_of_false (fun h => by cases h) fun h => by cases h
  | error e' u =>
    rw [run_operation_error hr]
    constructor <;> rintro ⟨⟩ <;> rfl

theorem Move.stop_of_ok {m : Move} {o : Operand} (hr : m.run h = .ok o t) : m.stop h = t := by
  rw [stop, after, show m.act h m.start = _ from hr]

/-- **An evaluation stops exactly if one of its moves does**, and there. -/
theorem Evaluates.error_iff {e : Stop} (hev : Evaluates h n s ms r) (he : e ≠ .outOfFuel) :
    r = .error e t ↔ ∃ m ∈ ms, m.run h = .error e t := by
  induction hev with
  | deep s =>
    refine iff_of_false (fun hr => he ?_) fun ⟨m, hm, _⟩ => absurd hm List.not_mem_nil
    injection hr with hr _
    exact hr.symm
  | stop hs => simp [hs]
  | done hs | last hs ho => simp [hs]
  | inner hs ho hr ih => simpa [hs] using ih
  | op hs ho hr ih =>
    have hnone := mt ih.mpr (by simp)
    constructor
    · exact fun hop => ⟨_, by simp, run_operation_error_iff.mpr hop⟩
    · rintro ⟨m, hm, hstop⟩
      rcases List.mem_cons.mp hm with rfl | hm
      · rw [hs] at hstop
        cases hstop
      rcases List.mem_append.mp hm with hm | hm
      · exact absurd ⟨m, hm, hstop⟩ hnone
      · obtain rfl := List.mem_singleton.mp hm
        exact run_operation_error_iff.mp hstop

end HuskyKernel
