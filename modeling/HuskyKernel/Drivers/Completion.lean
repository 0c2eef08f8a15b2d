import HuskyKernel.Drivers.Command
import HuskyKernel.Logic.Poll

/-!
# Drivers/Completion — how a call of `read` ends

`read` waits twice: for the port to be idle, a million times at most, and for its command to be
completed, without a bound.  Each wait is ended by the first answer of the controller that ends it,
so whether a call returns, and what, can be read off these answers (`read_outcome`).
-/

namespace HuskyKernel

open Wp Poll

/-- `s`, with more done. -/
def Hba.did (s : Hba) (l : List Access) : Hba := { s with log := s.log ++ l }

namespace Hba

variable {s : Hba} {l l' : List Access}

@[simp] theorem log_did : (s.did l).log = s.log ++ l := rfl

theorem did_did : (s.did l).did l' = s.did (l ++ l') := by
  rw [did, did, did, List.append_assoc]

@[simp] theorem did_nil : s.did [] = s := by
  rw [did, List.append_nil]

end Hba

namespace Drv

variable {hw : Controller} {s t : Hba} {log : List Access} {slot fuel k n : ℕ} {b : Bool}

/-! ## The wait for an idle port -/

/-- The port is busy when it is asked behind `log` for the `k`-th time, from 0 on. -/
def Busy (hw : Controller) (log : List Access) (k : ℕ) : Prop :=
  hw (log ++ List.replicate k (.read .tfd)) .tfd &&& 0x88 ≠ 0

/-- It is idle then, and has not been before. -/
structure IdleAt (hw : Controller) (log : List Access) (k : ℕ) : Prop where
  before : ∀ j < k, Busy hw log j
  idle : ¬ Busy hw log k

theorem busy_zero : Busy hw log 0 ↔ hw log .tfd &&& 0x88 ≠ 0 := by
  rw [Busy, List.replicate_zero, List.append_nil]

theorem busy_succ : Busy hw log (k + 1) ↔ Busy hw (log ++ [.read .tfd]) k := by
  rw [Busy, Busy, List.replicate_succ, List.append_assoc]
  rfl

/-- The tests of the wait are the reads of the task file. -/
theorem spin_succ_of_busy (h : Busy hw s.log 0) :
    spin hw (n + 1) s = spin hw n (s.did [.read .tfd]) := by
  rw [spin, bind_of_ok (m := readReg hw .tfd) rfl, if_neg (busy_zero.mp h)]
  rfl

/-- **An idle port ends the wait** — induction on the reads left. -/
theorem spin_of_idle (h : IdleAt hw s.log k) (hk : k < n) :
    spin hw n s = .ok false (s.did (List.replicate (k + 1) (.read .tfd))) := by
  induction n generalizing s k with
  | zero => exact absurd hk (Nat.not_lt_zero k)
  | succ n ih =>
    cases k with
    | zero =>
      have hidle := not_not.mp (mt busy_zero.mpr h.idle)
      rw [spin, bind_of_ok (m := readReg hw .tfd) rfl, if_pos hidle]
      rfl
    | succ k =>
      have hnext : IdleAt hw (s.did [.read .tfd]).log k :=
        ⟨fun j hj => busy_succ.mp (h.before (j + 1) (Nat.succ_lt_succ hj)),
          fun hbusy => h.idle (busy_succ.mpr hbusy)⟩
      rw [spin_succ_of_busy (h.before 0 (Nat.succ_pos k)),
        ih hnext (Nat.lt_of_succ_lt_succ hk), Hba.did_did]
      rfl

/-- **A port that is busy all the time is hung.** -/
theorem spin_of_busy (h : ∀ k < n, Busy hw s.log k) :
    spin hw n s = .ok true (s.did (List.replicate (n + 1) (.read .tfd))) := by
  induction n generalizing s with
  | zero => rfl
  | succ n ih =>
    rw [spin_succ_of_busy (h 0 (Nat.succ_pos n)),
      ih fun k hk => busy_succ.mp (h (k + 1) (Nat.succ_lt_succ hk)), Hba.did_did]
    rfl

/-- Busy all the time, or idle at some time. -/
theorem busy_or_idleAt (hw : Controller) (log : List Access) (n : ℕ) :
    (∀ k < n, Busy hw log k) ∨ ∃ k < n, IdleAt hw log k := by
  classical
  by_cases h : ∃ k, k < n ∧ ¬ Busy hw log k
  · obtain ⟨hlt, hidle⟩ := Nat.find_spec h
    refine .inr ⟨Nat.find h, hlt, fun j hj => not_not.mp fun hbusy => ?_, hidle⟩
    exact Nat.find_min h hj ⟨hj.trans hlt, hbusy⟩
  · exact .inl fun k hk => not_not.mp fun hbusy => h ⟨k, hk, hbusy⟩

/-! ## The wait for completion

The error is checked in every round and once more behind the loop, which comes to one check behind
every look at `ci`. -/

/-- What a round of the wait finds out, `log` being what has been done: the command has failed, is
done, or neither. -/
def report (hw : Controller) (slot : ℕ) (log : List Access) : Option Bool :=
  if hw (log ++ [.read .ci]) .is &&& 0x40000000 ≠ 0 then some false
  else if hw log .ci &&& 1#32 <<< slot = 0 then some true
  else none

/-- What a round does. -/
def roundOf (hw : Controller) (log : List Access) : List Access :=
  [.read .ci, .read .is] ++
    if hw (log ++ [.read .ci]) .is &&& 0x40000000 ≠ 0 then
      [.printk (str "Read disk error\n")]
    else []

/-- One round of the wait. -/
def awaitOnce (hw : Controller) (slot : ℕ) : Drv (Option Bool) := fun s =>
  .ok (report hw slot s.log) (s.did (roundOf hw s.log))

theorem returns_awaitOnce : Returns (awaitOnce hw slot) (fun s => report hw slot s.log)
    fun s => s.did (roundOf hw s.log) := fun _ => rfl

/-- **The wait goes round until the command is done or has failed.** -/
theorem awaitCommand_eq_poll (hw : Controller) (slot fuel : ℕ) :
    awaitCommand hw slot fuel = poll (awaitOnce hw slot) .hang fuel := by
  funext s
  induction fuel generalizing s with
  | zero => rfl
  | succ n ih =>
    by_cases hfail : hw (s.log ++ [.read .ci]) .is &&& 0x40000000 ≠ 0
    · -- the error ends the wait, whether or not the command is done
      have hreport : report hw slot s.log = some false := if_pos hfail
      have hround : roundOf hw s.log =
          [.read .ci, .read .is, .printk (str "Read disk error\n")] := by
        rw [roundOf, if_pos hfail]
        rfl
      rw [poll_succ_of_some returns_awaitOnce hreport, hround, awaitCommand]
      by_cases hci : hw s.log .ci &&& 1#32 <<< slot = 0
      · have hdone : complete hw slot (n + 1) s = .ok true (s.did [.read .ci]) := by
          rw [complete, bind_of_ok (m := readReg hw .ci) rfl, if_pos hci]
          rfl
        rw [bind_of_ok hdone, if_pos rfl, bind_of_ok (m := readReg hw .is) rfl,
          Hba.log_did, if_pos hfail, bind_of_ok (m := printk _) rfl]
        simp [Hba.did, pure, EStateM.pure]
      · have hdone : complete hw slot (n + 1) s = .ok false
            (s.did [.read .ci, .read .is, .printk (str "Read disk error\n")]) := by
          rw [complete, bind_of_ok (m := readReg hw .ci) rfl, if_neg hci,
            bind_of_ok (m := readReg hw .is) rfl, if_pos hfail, bind_of_ok (m := printk _) rfl]
          simp [Hba.did, pure, EStateM.pure]
        rw [bind_of_ok hdone, if_neg Bool.false_ne_true]
        rfl
    · have hround : roundOf hw s.log = [.read .ci, .read .is] := by
        rw [roundOf, if_neg hfail, List.append_nil]
      by_cases hci : hw s.log .ci &&& 1#32 <<< slot = 0
      · have hreport : report hw slot s.log = some true := by
          rw [report, if_neg hfail, if_pos hci]
        have hdone : complete hw slot (n + 1) s = .ok true (s.did [.read .ci]) := by
          rw [complete, bind_of_ok (m := readReg hw .ci) rfl, if_pos hci]
          rfl
        rw [poll_succ_of_some returns_awaitOnce hreport, hround, awaitCommand, bind_of_ok hdone,
          if_pos rfl, bind_of_ok (m := readReg hw .is) rfl, Hba.log_did, if_neg hfail]
        simp [Hba.did, pure, EStateM.pure]
      · have hreport : report hw slot s.log = none := by
          rw [report, if_neg hfail, if_neg hci]
        have hgo : complete hw slot (n + 1) s =
            complete hw slot n (s.did [.read .ci, .read .is]) := by
          rw [complete, bind_of_ok (m := readReg hw .ci) rfl, if_neg hci,
            bind_of_ok (m := readReg hw .is) rfl, if_neg hfail]
          simp [Hba.did]
        rw [poll_succ_of_none returns_awaitOnce hreport, hround, ← ih, awaitCommand, awaitCommand]
        change (complete hw slot (n + 1) >>= _) s = (complete hw slot n >>= _) _
        cases hrest : complete hw slot n (s.did [.read .ci, .read .is]) with
        | ok done t => rw [bind_of_ok (hgo.trans hrest), bind_of_ok hrest]
        | error e t => rw [bind_of_error (hgo.trans hrest), bind_of_error hrest]

/-- `k` rounds that found nothing out. -/
def rounds (log : List Access) (k : ℕ) : List Access :=
  log ++ (List.replicate k [.read .ci, .read .is]).flatten

/-- Round `k` is the first to find something out, and it finds `b`. -/
structure ReportsAt (hw : Controller) (slot : ℕ) (log : List Access) (k : ℕ) (b : Bool) :
    Prop where
  before : ∀ j < k, report hw slot (rounds log j) = none
  report : report hw slot (rounds log k) = some b

theorem rounds_succ : rounds log (k + 1) = rounds log k ++ [.read .ci, .read .is] := by
  rw [rounds, rounds, List.replicate_succ', List.flatten_append, List.append_assoc]
  rfl

theorem roundOf_of_none (h : report hw slot log = none) :
    roundOf hw log = [.read .ci, .read .is] := by
  rw [report] at h
  split_ifs at h with hfail
  rw [roundOf, if_neg hfail, List.append_nil]

/-- The rounds of the loop are these, as long as they find nothing out — induction on the rounds. -/
theorem iterate_round (hw : Controller) (slot : ℕ) (s : Hba) (k : ℕ) :
    ((∀ j < k, report hw slot ((fun s : Hba => s.did (roundOf hw s.log))^[j] s).log = none) ↔
        ∀ j < k, report hw slot (rounds s.log j) = none) ∧
      ((∀ j < k, report hw slot (rounds s.log j) = none) →
        ((fun s : Hba => s.did (roundOf hw s.log))^[k] s).log = rounds s.log k) := by
  induction k with
  | zero =>
    refine ⟨iff_of_true (fun j hj => absurd hj (Nat.not_lt_zero j))
      fun j hj => absurd hj (Nat.not_lt_zero j), fun _ => ?_⟩
    rw [rounds, List.replicate_zero, List.flatten_nil, List.append_nil]
    rfl
  | succ k ih =>
    simp only [Nat.forall_lt_succ_right]
    constructor
    · constructor
      · rintro ⟨hbefore, hk⟩
        have hrounds := ih.1.mp hbefore
        exact ⟨hrounds, by rwa [ih.2 hrounds] at hk⟩
      · rintro ⟨hrounds, hk⟩
        exact ⟨ih.1.mpr hrounds, by rwa [ih.2 hrounds]⟩
    · rintro ⟨hrounds, hk⟩
      rw [Function.iterate_succ_apply', Hba.log_did, ih.2 hrounds, roundOf_of_none hk, rounds_succ]

theorem answers_iff : Answers (fun s => report hw slot s.log)
    (fun s : Hba => s.did (roundOf hw s.log)) s k b ↔ ReportsAt hw slot s.log k b := by
  obtain ⟨hbefore, hlog⟩ := iterate_round hw slot s k
  constructor
  · rintro ⟨hnone, hsome⟩
    have hrounds := hbefore.mp hnone
    exact ⟨hrounds, by rwa [hlog hrounds] at hsome⟩
  · rintro ⟨hrounds, hsome⟩
    exact ⟨hbefore.mpr hrounds, by rwa [hlog hrounds]⟩

/-- The wait returns what the first round to find something out finds. -/
theorem exists_awaitCommand_iff :
    (∃ fuel t, awaitCommand hw slot fuel s = .ok b t) ↔ ∃ k, ReportsAt hw slot s.log k b := by
  simp only [awaitCommand_eq_poll, exists_poll_ok_iff returns_awaitOnce, answers_iff]

/-- It does not return if no round ever does. -/
theorem forall_awaitCommand_iff :
    (∀ fuel, ∃ t, awaitCommand hw slot fuel s = .error .hang t) ↔
      ∀ k, report hw slot (rounds s.log k) = none := by
  simp only [awaitCommand_eq_poll, forall_poll_error_iff returns_awaitOnce]
  constructor
  · intro h k
    exact (iterate_round hw slot s (k + 1)).1.mp (fun j _ => h j) k (Nat.lt_succ_self k)
  · intro h k
    exact (iterate_round hw slot s (k + 1)).1.mpr (fun j _ => h j) k (Nat.lt_succ_self k)

/-! ## A call of `read` -/

section Read

variable {startl starth count buf : Word} {slot' : ℕ} {log' : List Access}

/-- Clearing `is`, and looking for a slot. -/
def searched : List Access := [.write .is 0xFFFFFFFF, .read .sact, .read .ci]

/-- The command goes out in `slot`, and `log` is what has been done then. -/
structure IssuedWith (hw : Controller) (s : Hba) (startl starth count buf : Word) (slot : ℕ)
    (log : List Access) : Prop where
  chosen : chosenSlot hw s = some slot
  idle : ∃ k < 1000000, IdleAt hw (s.log ++ searched) k ∧
    log = s.log ++ searched ++ List.replicate (k + 1) (.read .tfd) ++
      [.issue slot (command s slot startl starth count buf).mem]

/-- The state the command has been built in. -/
def built (s : Hba) (slot : ℕ) (startl starth count buf : Word) : Hba :=
  { s.did searched with
    mem := (command s slot startl starth count buf).mem
    stored := s.stored ++ (command s slot startl starth count buf).stored }

theorem findCmdslot_of_some
    (h : scanSlots 33 0 (hw s.log .sact ||| hw (s.log ++ [.read .sact]) .ci) = some slot) :
    findCmdslot hw s = .ok (some slot) (s.did [.read .sact, .read .ci]) := by
  rw [findCmdslot, bind_of_ok (m := readReg hw .sact) rfl, bind_of_ok (m := readReg hw .ci) rfl, h]
  simp [Hba.did, pure, EStateM.pure]

/-- `read` up to the first wait. -/
theorem read_of_chosen (h : chosenSlot hw s = some slot) :
    read hw fuel startl starth count buf s =
      issueCommand hw slot fuel (built s slot startl starth count buf) := by
  have hfind : findCmdslot hw (s.did [.write .is 0xFFFFFFFF]) =
      .ok (some slot) (s.did searched) :=
    (findCmdslot_of_some (s := s.did [.write .is 0xFFFFFFFF]) h).trans
      (congrArg _ Hba.did_did)
  rw [read, bind_of_ok (m := note (.write .is 0xFFFFFFFF)) rfl]
  exact bind_of_ok hfind

/-- `read` on a port that stays busy. -/
theorem read_of_busy (h : chosenSlot hw s = some slot)
    (hbusy : ∀ k < 1000000, Busy hw (s.log ++ searched) k) :
    read hw fuel startl starth count buf s = .ok false
      ((built s slot startl starth count buf).did
        (List.replicate (1000000 + 1) (.read .tfd) ++ [.printk (str "Port is hung\n")])) := by
  have hspin : spin hw 1000000 (built s slot startl starth count buf) = .ok true _ :=
    spin_of_busy hbusy
  rw [read_of_chosen h, issueCommand, bind_of_ok hspin, if_pos rfl, ← Hba.did_did]
  rfl

/-- The state its command goes out in. -/
def issued (s : Hba) (slot : ℕ) (log : List Access) (startl starth count buf : Word) : Hba :=
  { built s slot startl starth count buf with log := log }

/-- `read`, once its command is out. -/
theorem read_of_issuedWith (h : IssuedWith hw s startl starth count buf slot log) :
    read hw fuel startl starth count buf s =
      awaitCommand hw slot fuel (issued s slot log startl starth count buf) := by
  obtain ⟨hchosen, k, hk, hidle, rfl⟩ := h
  have hspin : spin hw 1000000 (built s slot startl starth count buf) = .ok false _ :=
    spin_of_idle hidle hk
  rw [read_of_chosen hchosen, issueCommand, bind_of_ok hspin, if_neg Bool.false_ne_true]
  rfl

/-- **How a call of `read` goes**: it finds no slot, finds the port hung, or issues its command. -/
theorem read_cases (hw : Controller) (s : Hba) (startl starth count buf : Word) :
    chosenSlot hw s = none ∨
      ((chosenSlot hw s).isSome ∧ ∀ k < 1000000, Busy hw (s.log ++ searched) k) ∨
      ∃ slot log, IssuedWith hw s startl starth count buf slot log := by
  cases hslot : chosenSlot hw s with
  | none => exact .inl rfl
  | some slot =>
    rcases busy_or_idleAt hw (s.log ++ searched) 1000000 with hbusy | ⟨k, hk, hidle⟩
    · exact .inr (.inl ⟨rfl, hbusy⟩)
    · exact .inr (.inr ⟨slot, _, hslot, k, hk, hidle, rfl⟩)

/-- Once the command is out, the wait decides. -/
theorem read_issuedWith_iff (h : IssuedWith hw s startl starth count buf slot log) :
    ((∃ fuel t, read hw fuel startl starth count buf s = .ok b t) ↔
      ∃ k, ReportsAt hw slot log k b) ∧
    ((∀ fuel, ∃ t, read hw fuel startl starth count buf s = .error .hang t) ↔
      ∀ k, report hw slot (rounds log k) = none) := by
  simp only [read_of_issuedWith h]
  exact ⟨exists_awaitCommand_iff, forall_awaitCommand_iff⟩

/-- A call that does not issue its command fails, however long it may wait. -/
theorem read_of_not_issuedWith
    (h : chosenSlot hw s = none ∨
      (chosenSlot hw s).isSome ∧ ∀ k < 1000000, Busy hw (s.log ++ searched) k) :
    (∀ fuel, ∃ t, read hw fuel startl starth count buf s = .ok false t) ∧
      ∀ slot log, ¬ IssuedWith hw s startl starth count buf slot log := by
  rcases h with hnone | ⟨hsome, hbusy⟩
  · refine ⟨fun fuel => ?_, fun slot log h => ?_⟩
    · obtain ⟨t, -, ht⟩ := read_of_none fuel startl starth count buf hnone
      exact ⟨t, ht⟩
    · exact Option.some_ne_none slot (h.chosen.symm.trans hnone)
  · obtain ⟨slot, hslot⟩ := Option.isSome_iff_exists.mp hsome
    refine ⟨fun fuel => ⟨_, read_of_busy hslot hbusy⟩, fun slot' log h => ?_⟩
    obtain ⟨k, hk, hidle, -⟩ := h.idle
    exact hidle.idle (hbusy k hk)

theorem read_true_iff : (∃ fuel t, read hw fuel startl starth count buf s = .ok true t) ↔
    ∃ slot log k, IssuedWith hw s startl starth count buf slot log ∧
      ReportsAt hw slot log k true := by
  constructor
  · rintro ⟨fuel, t, hrun⟩
    rcases or_assoc.mpr (read_cases hw s startl starth count buf) with hnot | ⟨slot, log, hissued⟩
    · obtain ⟨t', ht'⟩ := (read_of_not_issuedWith hnot).1 fuel
      cases hrun.symm.trans ht'
    · obtain ⟨k, hk⟩ := (read_issuedWith_iff hissued).1.mp ⟨fuel, t, hrun⟩
      exact ⟨slot, log, k, hissued, hk⟩
  · rintro ⟨slot, log, k, hissued, hk⟩
    exact (read_issuedWith_iff hissued).1.mpr ⟨k, hk⟩

theorem read_false_iff : (∃ fuel t, read hw fuel startl starth count buf s = .ok false t) ↔
    chosenSlot hw s = none ∨
      ((chosenSlot hw s).isSome ∧ ∀ k < 1000000, Busy hw (s.log ++ searched) k) ∨
      ∃ slot log k, IssuedWith hw s startl starth count buf slot log ∧
        ReportsAt hw slot log k false := by
  rw [← or_assoc]
  constructor
  · rintro ⟨fuel, t, hrun⟩
    rcases or_assoc.mpr (read_cases hw s startl starth count buf) with hnot | ⟨slot, log, hissued⟩
    · exact .inl hnot
    · obtain ⟨k, hk⟩ := (read_issuedWith_iff hissued).1.mp ⟨fuel, t, hrun⟩
      exact .inr ⟨slot, log, k, hissued, hk⟩
  · rintro (hnot | ⟨slot, log, k, hissued, hk⟩)
    · exact ⟨0, (read_of_not_issuedWith hnot).1 0⟩
    · exact (read_issuedWith_iff hissued).1.mpr ⟨k, hk⟩

theorem read_hang_iff :
    (∀ fuel, ∃ t, read hw fuel startl starth count buf s = .error .hang t) ↔
      ∃ slot log, IssuedWith hw s startl starth count buf slot log ∧
        ∀ k, report hw slot (rounds log k) = none := by
  constructor
  · intro hhang
    rcases or_assoc.mpr (read_cases hw s startl starth count buf) with hnot | ⟨slot, log, hissued⟩
    · obtain ⟨t, ht⟩ := hhang 0
      obtain ⟨t', ht'⟩ := (read_of_not_issuedWith hnot).1 0
      cases ht.symm.trans ht'
    · exact ⟨slot, log, hissued, (read_issuedWith_iff (b := true) hissued).2.mp hhang⟩
  · rintro ⟨slot, log, hissued, hnone⟩
    exact (read_issuedWith_iff (b := true) hissued).2.mpr hnone

/-- **How a call of `read` ends**, read off the controller's answers: with success exactly if its
command goes out and the first thing the wait finds out is that it is done; without exactly if there
is no slot, the port stays busy, or the first thing found out is an error; never, if nothing is. -/
theorem read_outcome (hw : Controller) (s : Hba) (startl starth count buf : Word) :
    ((∃ fuel t, read hw fuel startl starth count buf s = .ok true t) ↔
      ∃ slot log k, IssuedWith hw s startl starth count buf slot log ∧
        ReportsAt hw slot log k true) ∧
    ((∃ fuel t, read hw fuel startl starth count buf s = .ok false t) ↔
      chosenSlot hw s = none ∨
        ((chosenSlot hw s).isSome ∧ ∀ k < 1000000, Busy hw (s.log ++ searched) k) ∨
        ∃ slot log k, IssuedWith hw s startl starth count buf slot log ∧
          ReportsAt hw slot log k false) ∧
    ((∀ fuel, ∃ t, read hw fuel startl starth count buf s = .error .hang t) ↔
      ∃ slot log, IssuedWith hw s startl starth count buf slot log ∧
        ∀ k, report hw slot (rounds log k) = none) :=
  ⟨read_true_iff, read_false_iff, read_hang_iff⟩

end Read

end Drv

end HuskyKernel
