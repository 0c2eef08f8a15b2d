import HuskyKernel.BuiltIn.Assignments
import HuskyKernel.Kernel.Buffer

/-!
# Kernel/Modes — a program line by line, and at once

`execute_buffer` calls `msh_execute` once a line; a program given to `msh_execute` as a whole goes
on at the newline, which is a blank.  For a program of assignments both come to the same
(`modes_agree_iff`) — unless one of its lines fails and, being run a second time, traps: behind an
error an address may be divided by, and the second time it is another one.
-/

namespace HuskyKernel

open Wp Scan Msh

/-! ## The calls `execute_buffer` makes -/

section Again

variable (answer : Calls → List Byte → Bool)

/-- The lines of `ls` and the one behind them, up to the first that fails: if that is one of `ls`,
which end in a newline, it is run once more. -/
def submitAgain : Calls → List (List Byte) → List Byte → Calls × Bool
  | calls, [], last => submit answer calls [last]
  | calls, l :: ls, last =>
    if l = [] then submitAgain calls ls last
    else if answer calls l then submitAgain (calls ++ [(l, true)]) ls last
    else (calls ++ [(l, false)] ++ [(l, answer (calls ++ [(l, false)]) l)], false)

variable {answer} {calls : Calls} {ls : List (List Byte)}

theorem submit_cons (l : List Byte) : submit answer calls (l :: ls) =
    if l = [] then submit answer calls ls
    else if answer calls l then submit answer (calls ++ [(l, true)]) ls
    else (calls ++ [(l, false)], false) := rfl

theorem submitAgain_of_ok (last : List Byte) (hok : (submit answer calls ls).2 = true) :
    submitAgain answer calls ls last = submit answer (submit answer calls ls).1 [last] := by
  induction ls generalizing calls with
  | nil => rfl
  | cons l ls ih =>
    rw [submit_cons] at hok
    rw [submitAgain, submit_cons l]
    by_cases hl : l = []
    · rw [if_pos hl] at hok ⊢
      rw [if_pos hl, ih hok]
    · rw [if_neg hl] at hok ⊢
      rw [if_neg hl]
      cases hb : answer calls l with
      | true =>
        rw [hb, if_pos rfl] at hok
        rw [if_pos rfl, if_pos rfl, ih hok]
      | false =>
        rw [hb, if_neg Bool.false_ne_true] at hok
        cases hok

theorem submitAgain_of_fail (last : List Byte) (hfail : (submit answer calls ls).2 = false) :
    ∃ cs l, (submit answer calls ls).1 = cs ++ [(l, false)] ∧
      submitAgain answer calls ls last
        = (cs ++ [(l, false)] ++ [(l, answer (cs ++ [(l, false)]) l)], false) := by
  induction ls generalizing calls with
  | nil => cases hfail
  | cons l ls ih =>
    rw [submit_cons] at hfail ⊢
    rw [submitAgain]
    by_cases hl : l = []
    · rw [if_pos hl] at hfail ⊢
      rw [if_pos hl]
      exact ih hfail
    · rw [if_neg hl] at hfail ⊢
      rw [if_neg hl]
      cases hb : answer calls l with
      | true =>
        rw [hb, if_pos rfl] at hfail
        rw [if_pos rfl, if_pos rfl]
        exact ih hfail
      | false =>
        rw [if_neg Bool.false_ne_true, if_neg Bool.false_ne_true]
        exact ⟨calls, l, rfl, rfl⟩

/-- The call of a line that is not empty. -/
theorem submit_last {l : List Byte} (hl : l ≠ []) :
    submit answer calls [l] = (calls ++ [(l, answer calls l)], answer calls l) := by
  rw [submit_cons, if_neg hl]
  cases answer calls l <;> rfl

/-- What has been submitted with success has succeeded, call by call. -/
theorem all_submit (hcalls : calls.all Prod.snd = true) :
    (submit answer calls ls).1.all Prod.snd = (submit answer calls ls).2 := by
  induction ls generalizing calls with
  | nil => exact hcalls
  | cons l ls ih =>
    rw [submit_cons]
    by_cases hl : l = []
    · rw [if_pos hl, ih hcalls]
    · rw [if_neg hl]
      cases answer calls l with
      | true =>
        rw [if_pos rfl, ih]
        simp [hcalls]
      | false => simp

namespace Executor

variable {st st' : Executor} {n : ℕ}

/-- If a line fails the loop is left with that line still to be run. -/
theorem scanLines_again (hrun : scanLines answer n st = some st')
    (hall : st.calls.all Prod.snd = true) :
    st'.calls.all Prod.snd = true ∨ ∃ cs, st'.calls = cs ++ [(st'.line, false)] := by
  induction n generalizing st with
  | zero => cases hrun
  | succ n ih =>
    rw [scanLines] at hrun
    split at hrun
    · cases hrun
      exact .inl hall
    · split at hrun
      · simp only at hrun
        split at hrun
        · cases hb : (st.poke 0).lineSuccess answer with
          | true =>
            rw [hb, if_pos rfl] at hrun
            refine ih hrun ?_
            change (st.calls ++ [((st.poke 0).line, (st.poke 0).lineSuccess answer)]).all _ = true
            rw [hb]
            simp [hall]
          | false =>
            rw [hb, if_neg Bool.false_ne_true] at hrun
            cases hrun
            refine .inr ⟨st.calls, ?_⟩
            change st.calls ++ [((st.poke 0).line, (st.poke 0).lineSuccess answer)] = _
            rw [hb]
            rfl
        · exact ih hrun hall
      · exact ih hrun hall

end Executor

open Executor in
/-- **The calls `execute_buffer` makes, and what it returns.** -/
theorem executeBuffer_submitAgain (answer : Calls → List Byte → Bool) (p : Program) :
    ∃ st, executeBuffer answer p.buffer p.text.length = some st ∧ (st.calls, st.overallSuccess)
      = submitAgain answer [] (Lines.terminated (chr '\n') p.text)
          (Lines.unfinished (chr '\n') p.text) := by
  obtain ⟨st, hrun, hbuffer, htr, hcalls, hend⟩ := executeBuffer_loop answer p
  refine ⟨(st.lastLine answer).report, hbuffer, ?_⟩
  have hreport : (st.lastLine answer).report.overallSuccess
      = (st.lastLine answer).calls.all Prod.snd := htr.lastLine
  have hsame : (st.lastLine answer).report.calls = (st.lastLine answer).calls := rfl
  rw [hreport, hsame]
  change st.calls = (submit answer [] (Lines.terminated (chr '\n') p.text)).1 at hcalls
  have hall : (submit answer [] (Lines.terminated (chr '\n') p.text)).1.all Prod.snd
      = (submit answer [] (Lines.terminated (chr '\n') p.text)).2 := all_submit rfl
  cases hno : (submit answer [] (Lines.terminated (chr '\n') p.text)).2 with
  | true =>
    have hthrough := (if_pos hno).mp hend
    rw [hno] at hall
    rw [submitAgain_of_ok _ hno, lastLine_of_through hthrough (zero_notMem_unfinished p), hcalls,
      ← submit_singleton, all_submit hall]
  | false =>
    have hbroken := (if_neg (Bool.eq_false_iff.mp hno)).mp hend
    obtain ⟨cs, l, hcs, hagain⟩ := submitAgain_of_fail (Lines.unfinished (chr '\n') p.text) hno
    rw [hno, ← hcalls] at hall
    obtain hall' | ⟨cs', hcs'⟩ := scanLines_again hrun rfl
    · exact absurd (hall.symm.trans hall') Bool.false_ne_true
    · obtain ⟨_, hline⟩ := List.append_inj' (hcs'.symm.trans (hcalls.trans hcs)) rfl
      obtain rfl : st.line = l := congrArg Prod.fst (List.singleton_inj.mp hline)
      rw [hagain, ← hcs, ← hcalls, lastLine, if_pos hbroken.lt, runLine]
      simp [lineSuccess, hall]

end Again

/-! ## Programs of assignments -/

/-- A line: an assignment with no operand missing, and the blanks around it. -/
structure Line where
  before : Blanks
  assign : Assign
  after : Blanks
  complete : assign.expr.Complete
  noNewline : chr '\n' ∉ before.text ++ (assign.text ++ after.text)

def Line.text (l : Line) : List Byte := l.before.text ++ (l.assign.text ++ l.after.text)

theorem Line.notMem_text (l : Line) : chr '\n' ∉ l.text := l.noNewline

/-- Lines that end in a newline, and one that does not. -/
structure Script where
  lines : List Line
  last : Option Line

namespace Script

/-- The lines, a newline behind each. -/
def linesText : List Line → List Byte
  | [] => []
  | l :: ls => l.text ++ chr '\n' :: linesText ls

/-- The line no newline ends. -/
def lastText (last : Option Line) : List Byte := last.elim [] Line.text

def text (sc : Script) : List Byte := linesText sc.lines ++ lastText sc.last

theorem notMem_lastText (last : Option Line) : chr '\n' ∉ lastText last := by
  cases last with
  | none => exact List.not_mem_nil
  | some l => exact l.notMem_text

theorem terminated_text (sc : Script) :
    Lines.terminated (chr '\n') sc.text = sc.lines.map Line.text := by
  obtain ⟨ls, last⟩ := sc
  induction ls with
  | nil => exact Lines.terminated_of_notMem (notMem_lastText last)
  | cons l ls ih =>
    rw [text, linesText, List.append_assoc, List.cons_append,
      Lines.terminated_append_cons l.notMem_text]
    exact congrArg _ ih

theorem unfinished_text (sc : Script) :
    Lines.unfinished (chr '\n') sc.text = lastText sc.last := by
  obtain ⟨ls, last⟩ := sc
  induction ls with
  | nil => exact Lines.unfinished_of_notMem (notMem_lastText last)
  | cons l ls ih =>
    rw [text, linesText, List.append_assoc, List.cons_append,
      Lines.unfinished_append_cons l.notMem_text]
    exact ih

end Script

/-! ## The whole of it -/

section Text

variable {cs : List Assign} {xs : List Byte}

/-- Blanks in front do not matter. -/
theorem Ahead.dropWhile (hcs : Ahead cs xs) : Ahead cs (xs.dropWhile isspace) := by
  cases cs with
  | nil =>
    rw [dropWhile_of_headD]
    · exact hcs
    · rw [show xs.headD 0 = 0 from hcs]
      exact isspace_zero
  | cons c cs =>
    obtain ⟨tail, htext, hrest⟩ := hcs
    refine ⟨tail, ?_, hrest⟩
    rw [dropWhile_of_headD (headD_dropWhile isspace_zero), htext]

/-- No operator is ahead. -/
theorem Ahead.isOp (hcs : Ahead cs xs) : Msh.isOp ((xs.dropWhile isspace).headD 0) = false := by
  cases cs with
  | nil =>
    have h0 : xs.headD 0 = 0 := hcs
    rw [dropWhile_of_headD (by rw [h0]; exact isspace_zero), h0]
    decide
  | cons c cs =>
    obtain ⟨tail, htext, -⟩ := hcs
    rw [htext, Assign.text, List.append_assoc, headD_append isalpha_zero c.target.letter]
    exact isOp_of_isalpha c.target.letter

/-- A line in front of others. -/
theorem Line.ahead (l : Line) (hx : isIdent (xs.headD 0) = false)
    (hcs : Ahead cs (xs.dropWhile isspace)) : Ahead (l.assign :: cs) (l.text ++ xs) := by
  have hletter : isalpha ((l.assign.text ++ (l.after.text ++ xs)).headD 0) = true := by
    rw [Assign.text, List.append_assoc, headD_append isalpha_zero l.assign.target.letter]
    exact l.assign.target.letter
  have hdrop : (l.after.text ++ xs).dropWhile isspace = xs.dropWhile isspace :=
    List.dropWhile_append_of_pos l.after.blank
  have hop := hcs.isOp
  rw [dropWhile_of_headD (headD_dropWhile isspace_zero)] at hop
  refine ⟨l.after.text ++ xs, ?_, l.complete, ends_of_complete l.complete ?_ ?_, ?_⟩
  · rw [Line.text, List.append_assoc, List.dropWhile_append_of_pos l.before.blank,
      List.append_assoc, dropWhile_of_headD]
    exact Bool.eq_false_iff.mpr fun hs =>
      Bool.noConfusion (hletter.symm.trans (isalpha_of_isspace hs))
  · cases hb : l.after.text with
    | nil => exact hx
    | cons c cs => exact isIdent_of_isspace (l.after.blank c (by simp [hb]))
  · rwa [hdrop]
  · rwa [hdrop]

/-- A line that ends at the NUL. -/
theorem Line.ahead_zero (l : Line) (zs : List Byte) : Ahead [l.assign] (l.text ++ 0 :: zs) :=
  l.ahead isIdent_zero rfl

theorem Script.ahead (sc : Script) (zs : List Byte) :
    Ahead (sc.lines.map Line.assign ++ (sc.last.map Line.assign).toList)
      (sc.text ++ 0 :: zs) := by
  obtain ⟨ls, last⟩ := sc
  induction ls with
  | nil =>
    cases last with
    | none => exact (rfl : (0 : Byte) = 0)
    | some l => exact l.ahead_zero zs
  | cons l ls ih =>
    rw [Script.text, linesText, List.append_assoc, List.append_assoc, List.cons_append]
    refine l.ahead rfl ?_
    rw [List.dropWhile_cons_of_pos (by decide), ← List.append_assoc]
    exact ih.dropWhile

end Text

/-! ## On the machine -/

section OnMachine

variable (h : Host) (fuel : ℕ) (behind : ℕ → List Byte)

/-- Calls of `msh_execute`, from the `k`th on; `behind k` is what lies behind the NUL of the `k`th
line. -/
def replay : ℕ → List (List Byte) → Msh Unit
  | _, [] => return
  | k, l :: ls => do
    let _ ← mshExecute h fuel (l ++ 0 :: behind k)
    replay (k + 1) ls

/-- What `msh_execute` returns for a line, the calls so far having been made from `s`. -/
def shellAnswer (s : Machine) (calls : Calls) (line : List Byte) : Bool :=
  match (do
      replay h fuel behind 0 (calls.map Prod.fst)
      mshExecute h fuel (line ++ 0 :: behind calls.length)) s with
  | .ok b _ => b
  | .error _ _ => false

/-- `execute_buffer` with the shell it calls: it stops where a call does. -/
def executeProgram (p : Program) : Msh Bool := fun s =>
  match executeBuffer (shellAnswer h fuel behind s) p.buffer p.text.length with
  | some st => (do
      replay h fuel behind 0 (st.calls.map Prod.fst)
      return st.overallSuccess) s
  | none => .error .outOfFuel s

variable {h fuel behind} {s t u : Machine} {a : Env} {calls : Calls} {l : List Byte} {b : Bool}

theorem replay_append (k : ℕ) (ls ms : List (List Byte)) : replay h fuel behind k (ls ++ ms)
    = replay h fuel behind k ls >>= fun _ => replay h fuel behind (k + ls.length) ms := by
  induction ls generalizing k with
  | nil => rfl
  | cons l ls ih =>
    rw [List.cons_append, replay, replay, bind_assoc]
    simp only [ih, List.length_cons, Nat.add_comm, Nat.add_left_comm]

/-- The calls so far have led from `s` to `t`. -/
def Replayed (h : Host) (fuel : ℕ) (behind : ℕ → List Byte) (s : Machine) (calls : Calls)
    (t : Machine) : Prop := replay h fuel behind 0 (calls.map Prod.fst) s = .ok () t

/-- The calls to come are made from there. -/
theorem Replayed.append (hre : Replayed h fuel behind s calls t) (more : Calls) :
    replay h fuel behind 0 ((calls ++ more).map Prod.fst) s
      = replay h fuel behind calls.length (more.map Prod.fst) t := by
  rw [List.map_append, replay_append, bind_of_ok hre, Nat.zero_add, List.length_map]

/-- The next call returns. -/
theorem Replayed.ok (hre : Replayed h fuel behind s calls t) (c : Bool)
    (hcall : mshExecute h fuel (l ++ 0 :: behind calls.length) t = .ok b u) :
    shellAnswer h fuel behind s calls l = b ∧
      Replayed h fuel behind s (calls ++ [(l, c)]) u := by
  constructor
  · rw [shellAnswer, bind_of_ok hre, hcall]
  · rw [Replayed, hre.append]
    exact bind_of_ok hcall

/-- The next call stops. -/
theorem Replayed.error {x : Stop} (hre : Replayed h fuel behind s calls t)
    (hcall : mshExecute h fuel (l ++ 0 :: behind calls.length) t = .error x u) (more : Calls)
    (c : Bool) : shellAnswer h fuel behind s calls l = false ∧
      replay h fuel behind 0 ((calls ++ (l, c) :: more).map Prod.fst) s = .error x u := by
  constructor
  · rw [shellAnswer, bind_of_ok hre, hcall]
  · rw [hre.append]
    exact bind_of_error hcall

/-- A line does what its assignment means, or traps. -/
theorem Line.denote (l : Line) (hr : Rep h t a) (hsafe : a.Safe) (hfuel : 1 < fuel)
    (zs : List Byte)
    (hfit : (l.assign.exec h { a with hadError := false }).top ≤ heapSize.toNat) :
    wp (mshExecute h fuel (l.text ++ 0 :: zs)) (fun r u =>
        r = !(l.assign.exec h { a with hadError := false }).hadError ∧
        Rep h u (l.assign.exec h { a with hadError := false }) ∧
        (l.assign.exec h { a with hadError := false }).Safe)
      (fun x _ => Trapped (l.assign.exec h { a with hadError := false }) x) t := by
  have hrun := Env.run_singleton (h := h) l.assign { a with hadError := false }
  have hwp := denote_mshExecute hr hsafe (l.ahead_zero zs) hfuel (hrun.symm ▸ hfit)
  rwa [hrun] at hwp

/-- The calls `r` make the state `a` of the machine `s`, and their result is that of `a`; or else
they trap. -/
def Makes (h : Host) (fuel : ℕ) (behind : ℕ → List Byte) (s : Machine) (r : Calls × Bool)
    (a : Env) : Prop :=
  wp (replay h fuel behind 0 (r.1.map Prod.fst))
    (fun _ u => r.2 = !a.hadError ∧ Rep h { u with hadError := a.hadError } a ∧ a.Safe)
    (fun x _ => Trapped a x) s

/-- The last call has been made. -/
theorem Replayed.makes (hre : Replayed h fuel behind s calls u) (hr : Rep h u a)
    (hb : b = !a.hadError) (hsafe : a.Safe) : Makes h fuel behind s (calls, b) a :=
  (wp_of_ok hre).mpr ⟨hb, hr.congr rfl rfl rfl hr.hadError.symm rfl rfl, hsafe⟩

theorem Line.text_ne_nil (l : Line) : l.text ≠ [] := by
  have hletter := l.assign.target.letter
  intro h0
  simp only [Line.text, Assign.text, List.append_eq_nil_iff] at h0
  rw [h0.2.1.1] at hletter
  cases hletter

/-- **A line is called.**  The call does what the line means; or it traps, and whatever calls come
after it are not made. -/
theorem Line.call (l : Line) {a' : Env} (ha' : l.assign.exec h { a with hadError := false } = a')
    (hre : Replayed h fuel behind s calls t) (hr : Rep h t a) (hsafe : a.Safe) (hfuel : 1 < fuel)
    (hfit : a'.top ≤ heapSize.toNat) :
    (∃ u, shellAnswer h fuel behind s calls l.text = !a'.hadError ∧ Rep h u a' ∧ a'.Safe ∧
        ∀ c, Replayed h fuel behind s (calls ++ [(l.text, c)]) u) ∨
      shellAnswer h fuel behind s calls l.text = false ∧
        ∀ more c r a'', a'.Grows a'' →
          Makes h fuel behind s (calls ++ (l.text, c) :: more, r) a'' := by
  subst ha'
  have hwp := l.denote hr hsafe hfuel (behind calls.length) hfit
  cases hcall : mshExecute h fuel (l.text ++ 0 :: behind calls.length) t with
  | ok r u =>
    obtain ⟨hb, hrep, hs⟩ := (wp_of_ok hcall).mp hwp
    exact .inl ⟨u, (hre.ok r hcall).1.trans hb, hrep, hs, fun c => (hre.ok c hcall).2⟩
  | error x u =>
    have htrap := (wp_of_error hcall).mp hwp
    exact .inr ⟨(hre.error hcall [] false).1, fun more c r a'' hgrows =>
      (wp_of_error (hre.error hcall more c).2).mpr (htrap.grows hgrows)⟩

/-- The line no newline ends. -/
theorem Line.makes_last (l : Line) (hre : Replayed h fuel behind s calls t) (hr : Rep h t a)
    (hsafe : a.Safe) (hfuel : 1 < fuel)
    (hfit : (l.assign.exec h { a with hadError := false }).top ≤ heapSize.toNat) :
    Makes h fuel behind s (submit (shellAnswer h fuel behind s) calls [l.text])
      (l.assign.exec h { a with hadError := false }) := by
  rw [submit_last l.text_ne_nil]
  rcases l.call rfl hre hr hsafe hfuel hfit with ⟨u, hans, hrep, hs, hre'⟩ | ⟨-, htrap⟩
  · exact (hre' _).makes hrep hans hs
  · exact htrap [] _ _ _ (.refl _)

/-- **The calls `execute_buffer` makes do what the lines mean**, run one by one, or trap — induction
on the lines. -/
theorem makes_submitAgain (last : Option Line) (ls : List Line) {calls : Calls} {t : Machine}
    {a : Env} (hre : Replayed h fuel behind s calls t) (hr : Rep h t a) (hsafe : a.Safe)
    (hfuel : 1 < fuel) (hfit : (Env.runEach h (ls.map Line.assign) (last.map Line.assign)
      { a with hadError := false }).top ≤ heapSize.toNat) :
    Makes h fuel behind s (submitAgain (shellAnswer h fuel behind s) calls (ls.map Line.text)
      (Script.lastText last)) (Env.runEach h (ls.map Line.assign) (last.map Line.assign)
        { a with hadError := false }) := by
  induction ls generalizing calls t a with
  | nil =>
    cases last with
    | none =>
      exact (wp_of_ok hre).mpr
        ⟨rfl, ⟨hr.vars, hr.varCount, hr.top, rfl, hr.identBuf, hr.texts, hr.null⟩, hsafe⟩
    | some l =>
      have hrun : Env.runEach h [] (some l.assign) { a with hadError := false }
          = l.assign.exec h { a with hadError := false } := Env.run_singleton _ _
      change (Env.runEach h [] (some l.assign) _).top ≤ _ at hfit
      change Makes h fuel behind s _ (Env.runEach h [] (some l.assign) _)
      rw [hrun] at hfit ⊢
      exact l.makes_last hre hr hsafe hfuel hfit
  | cons l ls ih =>
    rw [List.map_cons, List.map_cons, submitAgain, if_neg l.text_ne_nil]
    rw [List.map_cons] at hfit
    have hgrows := Env.exec_grows_runEach (h := h) (last.map Line.assign) (ls.map Line.assign)
      l.assign { a with hadError := false }
    rcases l.call rfl hre hr hsafe hfuel (hgrows.top.trans hfit) with
      ⟨u, hans, hrep, hs, hre'⟩ | ⟨hans, htrap⟩
    · rw [hans]
      rw [Env.runEach] at hfit ⊢
      cases he : (l.assign.exec h { a with hadError := false }).hadError with
      | false =>
        rw [if_pos (Bool.not_false)]
        simp only [he, Bool.false_eq_true, if_false] at hfit ⊢
        have hclear := Env.clear_of_ok he
        have hnext := ih (hre' true) hrep hs (hclear.symm ▸ hfit)
        rwa [hclear] at hnext
      | true =>
        rw [if_neg (by decide)]
        simp only [he, if_true] at hfit ⊢
        have hfails := Assign.exec_again rfl he
        have hagain := l.makes_last (hre' false) hrep hs hfuel hfit
        rw [submit_last l.text_ne_nil] at hagain
        exact wp_mono hagain (fun _ u hu => ⟨by rw [hfails]; rfl, hu.2⟩) fun _ _ => id
    · rw [hans, if_neg Bool.false_ne_true, List.append_assoc]
      exact htrap _ _ _ _ hgrows

end OnMachine

/-! ## Both modes -/

namespace Script

/-- The assignments of a program. -/
def assigns (sc : Script) : List Assign :=
  sc.lines.map Line.assign ++ (sc.last.map Line.assign).toList

/-- What the table and the heap of `s` are made by the lines, run one by one. -/
def eachRun (h : Host) (sc : Script) (s : Machine) : Env :=
  Env.runEach h (sc.lines.map Line.assign) (sc.last.map Line.assign)
    { s.env with hadError := false }

/-- What they are made by the program as a whole. -/
def wholeRun (h : Host) (sc : Script) (s : Machine) : Env :=
  Env.run h sc.assigns { s.env with hadError := false }

/-- No line is empty. -/
theorem length_assigns_le (sc : Script) : sc.assigns.length ≤ sc.text.length := by
  have hline (l : Line) : 0 < l.text.length := List.length_pos_iff.mpr l.text_ne_nil
  obtain ⟨ls, last⟩ := sc
  induction ls with
  | nil =>
    cases last with
    | none => exact Nat.zero_le _
    | some l => exact hline l
  | cons l ls ih =>
    simp only [assigns, text, linesText, List.length_append, List.length_map, List.length_cons]
      at ih ⊢
    omega

end Script

section Both

variable {h : Host} {fuel : ℕ} {behind : ℕ → List Byte} {s : Machine}

/-- **`execute_buffer` does what the lines mean, one by one**, or traps. -/
theorem Script.denote_executeProgram (sc : Script) {p : Program} (hp : p.text = sc.text)
    (hs : s.WellStored h) (hfuel : 1 < fuel) (behind : ℕ → List Byte)
    (hfit : (sc.eachRun h s).top ≤ heapSize.toNat) :
    wp (executeProgram h fuel behind p) (fun r u => r = !(sc.eachRun h s).hadError ∧
        Rep h { u with hadError := (sc.eachRun h s).hadError } (sc.eachRun h s) ∧
        (sc.eachRun h s).Safe) (fun x _ => Trapped (sc.eachRun h s) x) s := by
  have hstart : Replayed h fuel behind s [] s := rfl
  have hmakes := makes_submitAgain sc.last sc.lines hstart hs.rep (List.forall_mem_nil _) hfuel hfit
  obtain ⟨st, hst, hcalls⟩ := executeBuffer_submitAgain (shellAnswer h fuel behind s) p
  rw [hp, sc.terminated_text, sc.unfinished_text] at hcalls
  rw [← hcalls] at hmakes
  rw [wp, executeProgram, hst]
  exact wp_bind.mpr hmakes

/-- Only without a trap `execute_buffer` returns. -/
theorem Script.safe_of_ok {sc : Script} {p : Program} (hp : p.text = sc.text)
    (hs : s.WellStored h) (hfuel : 1 < fuel) (hfit : (sc.eachRun h s).top ≤ heapSize.toNat)
    {r : Bool} {t : Machine} (hrun : executeProgram h fuel behind p s = .ok r t) :
    (sc.eachRun h s).Safe :=
  ((wp_of_ok hrun).mp (sc.denote_executeProgram hp hs hfuel behind hfit)).2.2

/-- **`msh_execute` does what the program means as a whole**, or traps. -/
theorem Script.denote_mshExecute (sc : Script) (hs : s.WellStored h)
    (hfuel : sc.text.length < fuel) (zs : List Byte)
    (hfit : (sc.wholeRun h s).top ≤ heapSize.toNat) :
    wp (mshExecute h fuel (sc.text ++ 0 :: zs)) (fun r u => r = !(sc.wholeRun h s).hadError ∧
        Rep h u (sc.wholeRun h s) ∧ (sc.wholeRun h s).Safe)
      (fun x _ => Trapped (sc.wholeRun h s) x) s :=
  HuskyKernel.denote_mshExecute hs.rep (List.forall_mem_nil _) (sc.ahead zs)
    (sc.length_assigns_le.trans_lt hfuel) hfit

/-- The same names, types and values, strings compared by content. -/
structure SameTable (t u : Machine) : Prop where
  varCount : t.varCount = u.varCount
  name : ∀ i < t.varCount, (t.vars i).name = (u.vars i).name
  type : ∀ i < t.varCount, (t.vars i).type = (u.vars i).type
  val : ∀ i < t.varCount, (t.vars i).type ≠ .str → (t.vars i).val = (u.vars i).val
  text : ∀ i < t.varCount, (t.vars i).type = .str →
    ∃ text, t.mem.cstr? (t.vars i).val = some text ∧ u.mem.cstr? (u.vars i).val = some text

/-- Two machines with the table of one meaning. -/
theorem SameTable.of_rep {t u : Machine} {a b : Env} {e : Bool}
    (ht : Rep h { t with hadError := e } a) (hu : Rep h u b) (hvars : a.vars = b.vars)
    (hcount : a.varCount = b.varCount) : SameTable t u := by
  have hsame (i : ℕ) : t.vars i = u.vars i := by
    rw [hu.vars i, ← hvars]
    exact ht.vars i
  have hcount' : t.varCount = a.varCount := ht.varCount
  refine ⟨hcount'.trans (hcount.trans hu.varCount.symm), fun i _ => by rw [hsame],
    fun i _ => by rw [hsame], fun i _ _ => by rw [hsame], fun i hi hstr => ?_⟩
  have hvar : t.vars i = (a.vars i).var := ht.vars i
  have hint : (a.vars i).var.type ≠ .int := by rw [← hvar, hstr]; decide
  have hfloat : (a.vars i).var.type ≠ .float := by rw [← hvar, hstr]; decide
  have hlt : i < a.varCount := hcount' ▸ hi
  refine ⟨(a.vars i).text, ?_, ?_⟩
  · rw [hvar]
    exact (ht.texts i hlt hint hfloat).text
  · rw [← hsame, hvar]
    rw [hvars] at hint hfloat ⊢
    exact (hu.texts i (hcount ▸ hlt) hint hfloat).text

/-- **Line by line and at once a program of assignments leaves the same table and the same result,
exactly if no division traps when its lines are run one by one** — of which the one that fails is
run twice, if a newline is behind it. -/
theorem modes_agree_iff (sc : Script) (p : Program) (hp : p.text = sc.text) (s : Machine)
    (hs : s.WellStored h) (fuel : ℕ) (hfuel : sc.text.length + 1 < fuel) (behind : ℕ → List Byte)
    (zs : List Byte) (hfit : (sc.eachRun h s).top ≤ heapSize.toNat) :
    (∃ r t u, executeProgram h fuel behind p s = .ok r t ∧
        mshExecute h fuel (sc.text ++ 0 :: zs) s = .ok r u ∧ SameTable t u) ↔
      (sc.eachRun h s).Safe := by
  obtain ⟨hvars, hcount, herr, hgrows⟩ := Env.runEach_run (h := h) (sc.last.map Line.assign)
    (sc.lines.map Line.assign) (a := { s.env with hadError := false }) rfl
  have hfuel' : 1 < fuel := by omega
  have heach := sc.denote_executeProgram hp hs hfuel' behind hfit
  have hwhole := sc.denote_mshExecute hs (Nat.lt_of_succ_lt hfuel) zs (hgrows.top.trans hfit)
  constructor
  · rintro ⟨r, t, u, ht, -, -⟩
    exact Script.safe_of_ok hp hs hfuel' hfit ht
  · intro hsafe
    have hsafe' : (sc.wholeRun h s).Safe := hgrows.safe hsafe
    obtain ⟨r, t, ht, hr, hrep, -⟩ :=
      wp_returns.mp (wp_mono heach (fun _ _ => id) fun _ _ hx => hx.2 hsafe)
    obtain ⟨r', u, hu, hr', hrep', -⟩ :=
      wp_returns.mp (wp_mono hwhole (fun _ _ => id) fun _ _ hx => hx.2 hsafe')
    obtain rfl : r' = r := by
      rw [hr, hr']
      exact congrArg not herr.symm
    exact ⟨r', t, u, ht, hu, .of_rep hrep hrep' hvars hcount⟩

/-- A digit. -/
def numeral (c : Byte) (hc : isdigit c = true) : Prim := .number ⟨[c], hc, by simpa using hc⟩

/-- A letter. -/
def letter (c : Byte) (hc : isalpha c = true) : Ident :=
  ⟨[c], hc, by simp [isIdent, isalnum, hc]⟩

/-- `x=1`. -/
def assignOne : Line where
  before := .none
  assign := ⟨letter (chr 'x') rfl, .none, .last .none (numeral (chr '1') rfl)⟩
  after := .none
  complete := Prim.noConfusion
  noNewline := by decide

/-- `y=x*a`. -/
def assignProduct : Line where
  before := .none
  assign :=
    { target := letter (chr 'y') rfl
      between := .none
      expr := .op .none (.var (letter (chr 'x') rfl)) .none ⟨chr '*', rfl⟩
        (.last .none (.var (letter (chr 'a') rfl))) }
  after := .none
  complete := ⟨Prim.noConfusion, Prim.noConfusion⟩
  noNewline := by decide

/-- `z=w`. -/
def assignUnknown : Line where
  before := .none
  assign := ⟨letter (chr 'z') rfl, .none, .last .none (.var (letter (chr 'w') rfl))⟩
  after := .none
  complete := Prim.noConfusion
  noNewline := by decide

/-- `x=1`, `y=x*a`, `z=w` and, without a newline, `x=1` again. -/
def fourLines : Program where
  text := str "x=1\ny=x*a\nz=w\nx=1"
  behind := List.replicate 4079 0
  noNul := by decide
  fits := by decide
  size := by rw [List.length_replicate]; rfl

/-- `a` is -8388608, `b` is -2³¹. -/
def tableAB : Machine :=
  { Machine.boot with
    varCount := 2
    vars := fun i => if i = 0 then ⟨chr 'a' :: List.replicate 31 0, .int, -8388608⟩
      else ⟨chr 'b' :: List.replicate 31 0, .int, BitVec.intMin 32⟩ }

theorem wellStored_tableAB : tableAB.WellStored Host.bare := by
  refine .of_numbers rfl fun i _ => ?_
  change (if i = 0 then (_ : MshVar) else _).type = _
  split <;> rfl

/-- The third line fails on the unknown name and is run a second time; the fourth is not reached. -/
theorem modes_agree_fourLines : ∃ r t u,
    executeProgram Host.bare 30 (fun _ => []) fourLines tableAB = .ok r t ∧
      mshExecute Host.bare 30 (str "x=1\ny=x*a\nz=w\nx=1" ++ [0]) tableAB = .ok r u ∧
      SameTable t u :=
  (modes_agree_iff ⟨[assignOne, assignProduct, assignUnknown], some assignOne⟩ fourLines rfl tableAB
    wellStored_tableAB 30 (by decide) (fun _ => []) [] (by decide +kernel)).mpr (by decide +kernel)

/-- `x = b / a / "" / 0`. -/
def assignQuotients : Line where
  before := .none
  assign :=
    { target := letter (chr 'x') rfl
      between := .one
      expr := .op .one (.var (letter (chr 'b') rfl)) .one ⟨chr '/', rfl⟩
        (.op .one (.var (letter (chr 'a') rfl)) .one ⟨chr '/', rfl⟩
          (.op .one (.string ⟨[], List.forall_mem_nil _⟩) .one ⟨chr '/', rfl⟩
            (.last .one (numeral (chr '0') rfl)))) }
  after := .none
  complete := ⟨Prim.noConfusion, Prim.noConfusion, Prim.noConfusion, Prim.noConfusion⟩
  noNewline := by decide

/-- `x = b / a / "" / 0` and a newline. -/
def quotients : Program where
  text := str "x = b / a / \"\" / 0\n"
  behind := List.replicate 4077 0
  noNul := by decide
  fits := by decide
  size := by rw [List.length_replicate]; rfl

/-- The first time the address of `""` divides `a` to -2, the second time to -1. -/
theorem not_modes_agree_quotients : ¬ ∀ (h : Host) (sc : Script) (p : Program) (s : Machine)
    (fuel : ℕ) (behind : ℕ → List Byte) (zs : List Byte), p.text = sc.text → s.WellStored h →
    sc.text.length + 1 < fuel → (sc.eachRun h s).top ≤ heapSize.toNat →
    ∃ r t u, executeProgram h fuel behind p s = .ok r t ∧
      mshExecute h fuel (sc.text ++ 0 :: zs) s = .ok r u ∧ SameTable t u := by
  intro hall
  have hs := wellStored_tableAB
  have hfit : (Script.eachRun Host.bare ⟨[assignQuotients], none⟩ tableAB).top
      ≤ heapSize.toNat := by decide +kernel
  have htrap : ¬ (Script.eachRun Host.bare ⟨[assignQuotients], none⟩ tableAB).Safe := by
    decide +kernel
  have hp : quotients.text = Script.text ⟨[assignQuotients], none⟩ := rfl
  obtain ⟨r, t, u, ht, -, -⟩ := hall Host.bare ⟨[assignQuotients], none⟩ quotients tableAB 30
    (fun _ => []) [] hp hs (by decide) hfit
  exact htrap (Script.safe_of_ok hp hs (by decide) hfit ht)

end Both

end HuskyKernel
