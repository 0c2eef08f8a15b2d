import HuskyKernel.Drivers.InFlight

/-!
# Drivers/Engine — stopping and starting a port

`port_rebase` goes through three phases: it has the engines of the port stopped and waits until they
are, moves the structures, and waits once more before it has them started.  In which phase it is
left, if a wait does not end, is decided by the controller's answers (`portRebase_returns_iff`,
`portRebase_moves`), and a controller whose enable bits read as they were written is never told to
run between the first phase and the last (`portRebase_quiet`).
-/

namespace HuskyKernel

open Wp Poll

namespace Drv

variable {hw : Controller} {s t : Hba} {log : List Access} {fuel j k : ℕ} {p : Word}

/-- Rounds that add to the log, seen on the log. -/
theorem iterate_did (d : List Access → List Access) (k : ℕ) (s : Hba) :
    (fun s : Hba => s.did (d s.log))^[k] s =
      { s with log := (fun log => log ++ d log)^[k] s.log } := by
  induction k with
  | zero => rfl
  | succ k ih => rw [Function.iterate_succ_apply', ih, Function.iterate_succ_apply']; rfl

theorem answers_did_iff {α : Type} {r : List Access → Option α} {d : List Access → List Access}
    {a : α} : Answers (fun s : Hba => r s.log) (fun s : Hba => s.did (d s.log)) s k a ↔
      Answers r (fun log => log ++ d log) s.log k a := by
  constructor
  · rintro ⟨hbefore, ha⟩
    simp only [iterate_did] at hbefore ha
    exact ⟨hbefore, ha⟩
  · rintro ⟨hbefore, ha⟩
    refine ⟨fun j hj => ?_, ?_⟩
    all_goals simp only [iterate_did]
    · exact hbefore j hj
    · exact ha

/-! ## The two waits -/

/-- What a round of `stop_cmd` finds: both engines stopped, or not. -/
def stopReport (hw : Controller) (log : List Access) : Option Unit :=
  if hw log .cmd &&& 0x4000 ≠ 0 then none
  else if hw (log ++ [.read .cmd]) .cmd &&& 0x8000 ≠ 0 then none
  else some ()

/-- What it does. -/
def stopRound (hw : Controller) (log : List Access) : List Access :=
  .read .cmd :: if hw log .cmd &&& 0x4000 ≠ 0 then [] else [.read .cmd]

/-- The log behind `k` rounds of `stop_cmd`. -/
def stopLog (hw : Controller) (log : List Access) (k : ℕ) : List Access :=
  (fun log => log ++ stopRound hw log)^[k] log

/-- Round `k` of `stop_cmd` is the first to find both engines stopped. -/
def StopsAt (hw : Controller) (log : List Access) (k : ℕ) : Prop :=
  Answers (stopReport hw) (fun log => log ++ stopRound hw log) log k ()

/-- What a round of `start_cmd` finds: the command engine stopped, or not. -/
def idleReport (hw : Controller) (log : List Access) : Option Unit :=
  if hw log .cmd &&& 0x8000 ≠ 0 then none else some ()

/-- The log behind `k` rounds of `start_cmd`. -/
def idleLog (log : List Access) (k : ℕ) : List Access := (fun log => log ++ [.read .cmd])^[k] log

/-- Round `k` of `start_cmd` is the first to find the command engine stopped. -/
def StartsAt (hw : Controller) (log : List Access) (k : ℕ) : Prop :=
  Answers (idleReport hw) (fun log => log ++ [.read .cmd]) log k ()

/-- One round of `stop_cmd`. -/
def stopOnce (hw : Controller) : Drv (Option Unit) := fun s =>
  .ok (stopReport hw s.log) (s.did (stopRound hw s.log))

/-- One round of `start_cmd`. -/
def idleOnce (hw : Controller) : Drv (Option Unit) := fun s =>
  .ok (idleReport hw s.log) (s.did [.read .cmd])

theorem awaitStopped_eq_poll (hw : Controller) (fuel : ℕ) :
    awaitStopped hw fuel = poll (stopOnce hw) .hang fuel := by
  funext s
  induction fuel generalizing s with
  | zero => rfl
  | succ n ih =>
    rw [poll, awaitStopped, bind_of_ok (m := readReg hw .cmd) rfl,
      bind_of_ok (m := stopOnce hw) rfl, stopReport, stopRound]
    by_cases hfr : hw s.log .cmd &&& 0x4000 ≠ 0
    · simp only [if_pos hfr, ih]
      rfl
    · simp only [if_neg hfr]
      rw [bind_of_ok (m := readReg hw .cmd) rfl]
      by_cases hcr : hw (s.log ++ [.read .cmd]) .cmd &&& 0x8000 ≠ 0
      · simp only [if_pos hcr, ih, Hba.did]
        simp
      · simp only [if_neg hcr, Hba.did]
        simp [pure, EStateM.pure]

theorem awaitIdle_eq_poll (hw : Controller) (fuel : ℕ) :
    awaitIdle hw fuel = poll (idleOnce hw) .hang fuel := by
  funext s
  induction fuel generalizing s with
  | zero => rfl
  | succ n ih =>
    rw [poll, awaitIdle, bind_of_ok (m := readReg hw .cmd) rfl,
      bind_of_ok (m := idleOnce hw) rfl, idleReport]
    by_cases hcr : hw s.log .cmd &&& 0x8000 ≠ 0
    · simp only [if_pos hcr, ih]
      rfl
    · simp only [if_neg hcr]
      rfl

/-- A wait whose rounds are seen on the log. -/
theorem poll_log_cases {r : List Access → Option Unit} {d : List Access → List Access}
    {b : Drv (Option Unit)} (hbody : ∀ s, b s = .ok (r s.log) (s.did (d s.log))) (fuel : ℕ)
    (s : Hba) :
    (∃ k < fuel, Answers r (fun log => log ++ d log) s.log k () ∧
      poll b .hang fuel s = .ok () { s with log := (fun log => log ++ d log)^[k + 1] s.log }) ∨
    (∀ k < fuel, ¬ Answers r (fun log => log ++ d log) s.log k ()) ∧
      poll b .hang fuel s =
        .error .hang { s with log := (fun log => log ++ d log)^[fuel] s.log } := by
  have hreturns : Returns b (fun s => r s.log) fun s => s.did (d s.log) := hbody
  rcases poll_cases hreturns .hang fuel s with ⟨k, hk, ⟨⟩, ha, hrun⟩ | ⟨hnone, hrun⟩
  · exact .inl ⟨k, hk, answers_did_iff.mp ha, hrun.trans (by rw [iterate_did])⟩
  · refine .inr ⟨fun k hk ha => ?_, hrun.trans (by rw [iterate_did])⟩
    have hsome := (answers_did_iff.mpr ha).answer
    rw [hnone k hk] at hsome
    cases hsome

/-! ## The course of `port_rebase` -/

/-- `stop_cmd` up to its wait: `ST` is cleared, then `FRE`. -/
def halted (hw : Controller) (log : List Access) : List Access :=
  let log := log ++ [.read .cmd, .write .cmd (hw log .cmd &&& ~~~0x0001)]
  log ++ [.read .cmd, .write .cmd (hw log .cmd &&& ~~~0x0010)]

/-- `start_cmd` behind its wait: `FRE` is set, then `ST`. -/
def started (hw : Controller) (log : List Access) : List Access :=
  let log := log ++ [.read .cmd, .write .cmd (hw log .cmd ||| 0x0010)]
  log ++ [.read .cmd, .write .cmd (hw log .cmd ||| 0x0001)]

/-- How a call of `port_rebase` goes: it waits for the engines to stop with everything in place; or
has moved the structures, and waits to start the port; or has started it. -/
inductive Course (hw : Controller) (p : Word) (fuel : ℕ) (s : Hba) :
    EStateM.Result Hang Hba Unit → Prop
  | stopping (hstop : ∀ j < fuel, ¬ StopsAt hw (halted hw s.log) j) :
      Course hw p fuel s
        (.error .hang { s with log := stopLog hw (halted hw s.log) fuel })
  | starting {j : ℕ} (hj : j < fuel) (hstop : StopsAt hw (halted hw s.log) j)
      (hstart : ∀ k < fuel, ¬ StartsAt hw (stopLog hw (halted hw s.log) (j + 1)) k) :
      Course hw p fuel s (.error .hang
        { rebase p s with log := idleLog (stopLog hw (halted hw s.log) (j + 1)) fuel })
  | done {j k : ℕ} (hj : j < fuel) (hk : k < fuel) (hstop : StopsAt hw (halted hw s.log) j)
      (hstart : StartsAt hw (stopLog hw (halted hw s.log) (j + 1)) k) :
      Course hw p fuel s (.ok () { rebase p s with
        log := started hw (idleLog (stopLog hw (halted hw s.log) (j + 1)) (k + 1)) })

theorem note_eq (a : Access) (s : Hba) : note a s = .ok () (s.did [a]) := rfl

theorem updateCmd_eq (f : Word → Word) (s : Hba) : updateCmd hw f s =
    .ok () (s.did [.read .cmd, .write .cmd (f (hw s.log .cmd))]) := by
  rw [updateCmd, bind_of_ok (m := readReg hw .cmd) rfl]
  change note (.write .cmd (f (hw s.log .cmd))) (s.did [.read .cmd]) = _
  rw [note_eq, Hba.did_did, List.singleton_append]

theorem rebase_log (p : Word) (s : Hba) (log : List Access) :
    rebase p { s with log := log } = { rebase p s with log := log } := by
  simp only [rebase]

/-- **Every call of `port_rebase` takes this course.** -/
theorem portRebase_course (hw : Controller) (fuel : ℕ) (p : Word) (s : Hba) :
    Course hw p fuel s (portRebase hw fuel p s) := by
  have hhalt : stopCmd hw fuel s = awaitStopped hw fuel { s with log := halted hw s.log } := by
    rw [stopCmd, bind_of_ok (updateCmd_eq _ s), bind_of_ok (updateCmd_eq _ _), Hba.log_did,
      Hba.did_did]
    simp [Hba.did, halted]
  rw [awaitStopped_eq_poll] at hhalt
  rcases poll_log_cases (b := stopOnce hw) (fun _ => rfl) fuel { s with log := halted hw s.log }
    with ⟨j, hj, hstop, hrun⟩ | ⟨hnone, hrun⟩
  · have hmove : portRebase hw fuel p s =
        startCmd hw fuel { rebase p s with log := stopLog hw (halted hw s.log) (j + 1) } := by
      rw [portRebase, bind_of_ok (hhalt.trans hrun), bind_of_ok (m := modify _) rfl, stopLog,
        ← rebase_log]
    rw [hmove, startCmd, awaitIdle_eq_poll]
    rcases poll_log_cases (r := idleReport hw) (d := fun _ => [.read .cmd]) (b := idleOnce hw)
      (fun _ => rfl) fuel
      { rebase p s with log := stopLog hw (halted hw s.log) (j + 1) } with
      ⟨k, hk, hstart, hrun'⟩ | ⟨hnone, hrun'⟩
    · have hlog : ∀ u : Hba, (do updateCmd hw (· ||| 0x0010); updateCmd hw (· ||| 0x0001)) u =
          .ok () { u with log := started hw u.log } := fun u => by
        rw [bind_of_ok (updateCmd_eq _ u), updateCmd_eq, Hba.did_did]
        simp [Hba.did, started]
      have hdone := Course.done (p := p) hj hk hstop hstart
      rw [bind_of_ok hrun', hlog]
      simpa only [idleLog] using hdone
    · have hwait := Course.starting (p := p) hj hstop hnone
      rw [bind_of_error hrun']
      simpa only [idleLog] using hwait
  · rw [portRebase, bind_of_error (hhalt.trans hrun)]
    exact .stopping hnone

/-! ## A controller that keeps the enable bit -/

/-- `cmd` is not written. -/
def Untold (l : List Access) : Prop := ∀ v, Access.write .cmd v ∉ l

/-- `cmd` is written without `ST` only. -/
def Off (l : List Access) : Prop := ∀ v, Access.write .cmd v ∈ l → v.getLsbD 0 = false

/-- `ST` reads as it was written last. -/
def Latches (hw : Controller) : Prop := ∀ log v l, Untold l →
  (hw (log ++ .write .cmd v :: l) .cmd).getLsbD 0 = v.getLsbD 0

section Latches

variable {l l' : List Access} {v : Word}

theorem Untold.off (h : Untold l) : Off l := fun v hv => absurd hv (h v)

theorem Off.append (h : Off l) (h' : Off l') : Off (l ++ l') :=
  fun v hv => (List.mem_append.mp hv).elim (h v) (h' v)

theorem Untold.append (h : Untold l) (h' : Untold l') : Untold (l ++ l') :=
  fun v hv => (List.mem_append.mp hv).elim (h v) (h' v)

/-- Rounds that only read only read. -/
theorem iterate_untold {d : List Access → List Access} (hd : ∀ log, Untold (d log))
    (log : List Access) (k : ℕ) :
    ∃ l, (fun log => log ++ d log)^[k] log = log ++ l ∧ Untold l := by
  induction k with
  | zero => exact ⟨[], (List.append_nil log).symm, fun v => List.not_mem_nil⟩
  | succ k ih =>
    obtain ⟨l, hl, hnone⟩ := ih
    refine ⟨l ++ d (log ++ l), ?_, hnone.append (hd _)⟩
    rw [Function.iterate_succ_apply', hl, List.append_assoc]

theorem untold_stopRound (log : List Access) : Untold (stopRound hw log) := by
  intro v hv
  rw [stopRound] at hv
  split_ifs at hv <;> simp at hv

/-- `stop_cmd` writes `cmd` without `ST`, twice. -/
theorem halted_eq (h : Latches hw) (log : List Access) : ∃ l v,
    halted hw log = log ++ l ++ [.write .cmd v] ∧ Off l ∧ v.getLsbD 0 = false := by
  refine ⟨[.read .cmd, .write .cmd (hw log .cmd &&& ~~~0x0001), .read .cmd],
    hw (log ++ [.read .cmd, .write .cmd (hw log .cmd &&& ~~~0x0001)]) .cmd &&& ~~~0x0010,
    ?_, ?_, ?_⟩
  · simp only [halted, List.append_assoc, List.cons_append, List.nil_append]
  · intro w hw
    simp only [List.mem_cons, List.not_mem_nil, reduceCtorEq, Access.write.injEq, true_and,
      false_or, or_false] at hw
    rw [hw]
    simp
  · have hread := h (log ++ [.read .cmd]) (hw log .cmd &&& ~~~0x0001) [] fun _ => List.not_mem_nil
    rw [List.append_assoc, List.singleton_append] at hread
    rw [BitVec.getLsbD_and, hread]
    simp

/-- `start_cmd` writes it without `ST`, and then with. -/
theorem started_eq (h : Latches hw) (log₀ : List Access) (hv : v.getLsbD 0 = false)
    (hl : Untold l) : ∃ l' w, started hw (log₀ ++ .write .cmd v :: l) =
      log₀ ++ .write .cmd v :: l ++ l' ++ [.write .cmd w] ∧ Off l' ∧ w.getLsbD 0 = true := by
  have hread := (h log₀ v l hl).trans hv
  generalize log₀ ++ .write .cmd v :: l = log at hread
  refine ⟨[.read .cmd, .write .cmd (hw log .cmd ||| 0x0010), .read .cmd],
    hw (log ++ [.read .cmd, .write .cmd (hw log .cmd ||| 0x0010)]) .cmd ||| 0x0001, ?_, ?_, ?_⟩
  · simp only [started, List.append_assoc, List.cons_append, List.nil_append]
  · intro w hw
    simp only [List.mem_cons, List.not_mem_nil, reduceCtorEq, Access.write.injEq, true_and,
      false_or, or_false] at hw
    rw [hw, BitVec.getLsbD_or, hread]
    simp
  · rw [BitVec.getLsbD_or]
    simp

/-- **`ST` is set once, at the end, with the structures moved**: on a controller that keeps the bit,
a call that does not return never sets it. -/
theorem portRebase_quiet (h : Latches hw) (fuel : ℕ) (p : Word) (s : Hba) :
    wp (portRebase hw fuel p)
      (fun _ t => t.port = (rebase p s).port ∧ t.mem = (rebase p s).mem ∧
        ∃ l v, t.log = s.log ++ l ++ [.write .cmd v] ∧ Off l ∧ v.getLsbD 0 = true)
      (fun _ t => ∃ l, t.log = s.log ++ l ∧ Off l) s := by
  obtain ⟨l₀, v₀, hhalt, hoff, hv₀⟩ := halted_eq h s.log
  have hoff₀ : Off (l₀ ++ [.write .cmd v₀]) := hoff.append fun w hw => by
    obtain rfl := (Access.write.inj (List.mem_singleton.mp hw)).2
    exact hv₀
  have hstop : ∀ k, ∃ l, stopLog hw (halted hw s.log) k = halted hw s.log ++ l ∧ Untold l :=
    iterate_untold untold_stopRound _
  have hidle : ∀ log k, ∃ l, idleLog log k = log ++ l ∧ Untold l :=
    iterate_untold fun _ v hv => by simp at hv
  have hcourse := portRebase_course hw fuel p s
  generalize hr : portRebase hw fuel p s = r at hcourse
  rw [wp, hr]
  cases hcourse with
  | stopping =>
    obtain ⟨l, hl, hnone⟩ := hstop fuel
    refine ⟨l₀ ++ [.write .cmd v₀] ++ l, ?_, hoff₀.append hnone.off⟩
    rw [hl, hhalt]
    simp only [List.append_assoc]
  | @starting j =>
    obtain ⟨l, hl, hnone⟩ := hstop (j + 1)
    obtain ⟨l', hl', hnone'⟩ := hidle (stopLog hw (halted hw s.log) (j + 1)) fuel
    refine ⟨l₀ ++ [.write .cmd v₀] ++ l ++ l', ?_, (hoff₀.append hnone.off).append hnone'.off⟩
    rw [hl', hl, hhalt]
    simp only [List.append_assoc]
  | @done j k =>
    obtain ⟨l, hl, hnone⟩ := hstop (j + 1)
    obtain ⟨l', hl', hnone'⟩ := hidle (stopLog hw (halted hw s.log) (j + 1)) (k + 1)
    have hlog : idleLog (stopLog hw (halted hw s.log) (j + 1)) (k + 1) =
        (s.log ++ l₀) ++ .write .cmd v₀ :: (l ++ l') := by
      rw [hl', hl, hhalt]
      simp
    have hnone₀ := hnone.append hnone'
    obtain ⟨l₁, w, hstart, hoff₁, hw⟩ := started_eq h (s.log ++ l₀) hv₀ hnone₀
    dsimp only
    refine ⟨rfl, rfl, l₀ ++ [.write .cmd v₀] ++ (l ++ l') ++ l₁, w, ?_,
      (hoff₀.append hnone₀.off).append hoff₁, hw⟩
    rw [hlog, hstart]
    simp

end Latches

/-- A port whose engines stop at once, and whose `cmd` reads as it was written. -/
def latchPort : Controller := fun log _ =>
  ((log.filterMap fun
    | .write .cmd v => some v
    | _ => none).getLast?.getD 0) &&& 0x11

theorem latches_latchPort : Latches latchPort := by
  intro log v l hl
  have hnone : l.filterMap (fun
    | .write .cmd v => some v
    | _ => none) = ([] : List Word) := by
    refine List.filterMap_eq_nil_iff.mpr fun a ha => ?_
    split
    · exact absurd ha (hl _)
    · rfl
  rw [latchPort, List.filterMap_append, List.filterMap_cons]
  simp only [hnone]
  simp

/-- Setting up port 0 of it. -/
theorem portRebase_quiet_latchPort : wp (portRebase latchPort 1 0)
    (fun _ t => t.port = (rebase 0 idleHba).port ∧ t.mem = (rebase 0 idleHba).mem ∧
      ∃ l v, t.log = idleHba.log ++ l ++ [.write .cmd v] ∧ Off l ∧ v.getLsbD 0 = true)
    (fun _ t => ∃ l, t.log = idleHba.log ++ l ∧ Off l) idleHba :=
  portRebase_quiet latches_latchPort 1 0 idleHba

end Drv

end HuskyKernel
