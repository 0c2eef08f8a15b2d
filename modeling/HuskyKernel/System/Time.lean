import HuskyKernel.Drivers.Acpi
import Mathlib.Logic.Function.Iterate

/-!
# System/Time — the tick counter, and a loop that does not look at it

`sleep` compares the address of `get_time_in_seconds` with the time it waits for, where it should
call it: its loop is left at once, or never, however many ticks go by.  `endsInTime_iff` says for
which addresses and times that is what it should do.
-/

namespace HuskyKernel

namespace Time

/-- `TICKS_PER_SECOND`. -/
def ticksPerSecond : Word := 18

/-- `timer_interrupt_handler`. -/
def timerInterruptHandler (ticks : Word) : Word := ticks + 1

/-- `get_time_in_seconds`. -/
def getTimeInSeconds (ticks : Word) : Word := ticks / ticksPerSecond

/-- `time + duration / 100`. -/
def deadline (ticks duration : Word) : Word := getTimeInSeconds ticks + duration.sdiv 100

/-- The tick counts the condition is evaluated at, with so many interrupts before each. -/
def evaluations (ticks : Word) : List ℕ → List Word
  | [] => []
  | n :: paces =>
      let ticks := timerInterruptHandler^[n] ticks
      ticks :: evaluations ticks paces

/-- `while (get_time_in_seconds != time + duration / 100) {}`, with the function at `address`: the
evaluation at which the loop is left.  No evaluation looks at its tick count. -/
def sleepLoop (address deadline : Word) : List Word → Option ℕ
  | [] => none
  | _ :: ticks =>
      if address ≠ deadline then (sleepLoop address deadline ticks).map (· + 1) else some 0

/-- `sleep`, with so many interrupts before each evaluation of its condition. -/
def sleep (address ticks duration : Word) (paces : List ℕ) : Option ℕ :=
  sleepLoop address (deadline ticks duration) (evaluations ticks paces)

/-! ## What it should do -/

/-- The first evaluation that has come to the deadline. -/
def firstDue (ticks duration : Word) (paces : List ℕ) : Option ℕ :=
  (evaluations ticks paces).findIdx? fun t =>
    (deadline ticks duration).toNat ≤ (getTimeInSeconds t).toNat

/-- At every pace of the timer, as long as the counter does not wrap, the loop is left there. -/
def EndsInTime (address ticks duration : Word) : Prop :=
  ∀ paces : List ℕ, ticks.toNat + paces.sum < 2 ^ 32 →
    sleep address ticks duration paces = firstDue ticks duration paces

variable {address ticks duration : Word} {n : ℕ}

theorem toNat_getTimeInSeconds (ticks : Word) :
    (getTimeInSeconds ticks).toNat = ticks.toNat / 18 := BitVec.toNat_udiv

theorem toNat_interrupts (h : ticks.toNat + n < 2 ^ 32) :
    (timerInterruptHandler^[n] ticks).toNat = ticks.toNat + n := by
  induction n with
  | zero => rfl
  | succ n ih =>
    have hn := ih (by omega)
    rw [Function.iterate_succ_apply', timerInterruptHandler]
    bv_omega

/-- A duration is divided as a number. -/
theorem sdiv_eq_div (h : 0 ≤ duration.toInt) : duration.sdiv 100 = duration / 100 := by
  have hmsb : duration.msb = false := by
    rw [BitVec.msb_eq_toInt, decide_eq_false (not_lt.mpr h)]
  rw [BitVec.sdiv_eq, hmsb]
  rfl

/-- The deadline does not overflow. -/
theorem toNat_deadline (h : 0 ≤ duration.toInt) :
    (deadline ticks duration).toNat = ticks.toNat / 18 + duration.toNat / 100 := by
  have hticks := ticks.isLt
  have hduration := duration.isLt
  have hdiv : (duration / 100).toNat = duration.toNat / 100 := BitVec.toNat_udiv
  rw [deadline, sdiv_eq_div h, BitVec.toNat_add, toNat_getTimeInSeconds, hdiv,
    Nat.mod_eq_of_lt (by omega)]

/-! ## What it does -/

/-- At the address it waits for, the loop is left at its first evaluation. -/
theorem sleep_of_eq (h : address = deadline ticks duration) (n : ℕ) (paces : List ℕ) :
    sleep address ticks duration (n :: paces) = some 0 := by
  rw [sleep, evaluations, sleepLoop, if_neg (not_not.mpr h)]

/-- At any other it is never left. -/
theorem sleepLoop_of_ne {deadline : Word} (h : address ≠ deadline) (evals : List Word) :
    sleepLoop address deadline evals = none := by
  induction evals with
  | nil => rfl
  | cons t evals ih => rw [sleepLoop, if_pos h, ih, Option.map_none]

/-- The first evaluation is due if its time has come. -/
theorem firstDue_cons (paces : List ℕ)
    (h : (deadline ticks duration).toNat ≤ (timerInterruptHandler^[n] ticks).toNat / 18) :
    firstDue ticks duration (n :: paces) = some 0 := by
  rw [firstDue, evaluations, List.findIdx?_cons, toNat_getTimeInSeconds, decide_eq_true h,
    if_pos rfl]

/-- None is due before its time has come. -/
theorem firstDue_eq_none {paces : List ℕ}
    (h : ∀ t ∈ evaluations ticks paces, t.toNat / 18 < (deadline ticks duration).toNat) :
    firstDue ticks duration paces = none := by
  rw [firstDue, List.findIdx?_eq_none_iff]
  intro t ht
  rw [toNat_getTimeInSeconds, decide_eq_false (not_le.mpr (h t ht))]

/-- At the address it waits for, the loop ends in time exactly if the time is up at entry. -/
theorem endsInTime_iff_of_eq (hd : 0 ≤ duration.toInt) (heq : address = deadline ticks duration) :
    EndsInTime address ticks duration ↔ duration.toNat < 100 := by
  have hdeadline : (deadline ticks duration).toNat = ticks.toNat / 18 + duration.toNat / 100 :=
    toNat_deadline hd
  constructor
  · intro h
    by_contra hlong
    -- One evaluation, at the tick count of the entry.
    have hticks := ticks.isLt
    have hnow := h [0] (by rw [List.sum_singleton]; omega)
    rw [sleep_of_eq heq, firstDue_eq_none fun t ht => ?_] at hnow
    · cases hnow
    · obtain rfl : t = ticks := List.mem_singleton.mp ht
      omega
  · intro hnow paces hwrap
    cases paces with
    | nil => rfl
    | cons n paces =>
      rw [List.sum_cons] at hwrap
      rw [sleep_of_eq heq, firstDue_cons]
      rw [toNat_interrupts (by omega)]
      omega

/-- At any other it ends in time exactly if the time is never up before the counter wraps. -/
theorem endsInTime_iff_of_ne (hd : 0 ≤ duration.toInt) (hne : address ≠ deadline ticks duration) :
    EndsInTime address ticks duration ↔ 2 ^ 32 ≤ 18 * (deadline ticks duration).toNat := by
  have hdeadline : (deadline ticks duration).toNat = ticks.toNat / 18 + duration.toNat / 100 :=
    toNat_deadline hd
  constructor
  · intro h
    by_contra hreach
    -- The timer runs on to the deadline.
    have hticks := ticks.isLt
    have hnow := h [18 * (deadline ticks duration).toNat - ticks.toNat]
      (by rw [List.sum_singleton]; omega)
    rw [sleep, sleepLoop_of_ne hne, firstDue_cons] at hnow
    · cases hnow
    · rw [toNat_interrupts (by omega)]
      omega
  · intro hfar paces _
    rw [sleep, sleepLoop_of_ne hne, firstDue_eq_none fun t _ => ?_]
    have ht := t.isLt
    omega

/-- **When `sleep` ends in time.**  Linked at the time it waits for, if that is now; linked anywhere
else, if that time is never reached before the counter wraps. -/
theorem endsInTime_iff (hd : 0 ≤ duration.toInt) : EndsInTime address ticks duration ↔
    if address = deadline ticks duration then duration.toNat < 100
    else 2 ^ 32 ≤ 18 * (deadline ticks duration).toNat := by
  split_ifs with heq
  · exact endsInTime_iff_of_eq hd heq
  · exact endsInTime_iff_of_ne hd heq

/-- With the function at 60, a minute from boot on is over at once. -/
theorem endsInTime_iff_minute : ¬ EndsInTime 60 0 6000 := fun h =>
  absurd ((endsInTime_iff (by decide)).mp h) (by decide)

/-- **A second is never over**: with the function at 1M, the loop goes on when 18 ticks are past. -/
theorem not_endsInTime_second : ¬ EndsInTime 0x100000 0 100 := fun h =>
  absurd ((endsInTime_iff_of_ne (by decide) (by decide)).mp h) (by decide)

/-! ## The sleep of `acpiEnable` -/

/-- **It returns exactly if this loop is left**, and then at the first evaluation. -/
theorem acpi_sleep_iff (hw : Acpi.Hardware) (s : Acpi.State) (n : ℕ) (paces : List ℕ)
    (hd : 0 ≤ duration.toInt) (htime : hw.seconds s.log = getTimeInSeconds ticks) :
    (∃ s', Acpi.sleep hw address duration s = .ok () s') ↔
      sleep address ticks duration (n :: paces) = some 0 := by
  have hdeadline : hw.seconds s.log + duration / 100 = deadline ticks duration := by
    rw [htime, ← sdiv_eq_div hd, deadline]
  have hsleep : Acpi.sleep hw address duration s =
      (if address = hw.seconds s.log + duration / 100 then (return () : Acpi.Driver Unit)
      else throw .hang) s := rfl
  rw [hsleep, hdeadline]
  by_cases heq : address = deadline ticks duration
  · rw [if_pos heq]
    exact iff_of_true ⟨s, rfl⟩ (sleep_of_eq heq n paces)
  · rw [if_neg heq, sleep, sleepLoop_of_ne heq]
    refine iff_of_false ?_ nofun
    rintro ⟨s', h⟩
    cases h

end Time

end HuskyKernel
