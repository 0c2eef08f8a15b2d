import HuskyKernel.Logic.Ghost
import HuskyKernel.Drivers.Acpi

/-!
# Drivers/Handshake — waiting for ACPI to be enabled

`acpiEnable` asks the firmware for ACPI mode and polls both control ports for `SCI_EN`, with one
counter and 300 rounds for the two.  Written over what it calls (`Calls`) it is the driver's, and it
can be run with its sleeps counted beside the state.

`handshake`: as long as sleeping returns, it sleeps 300 times at most, and it returns 0 exactly if
`SCI_EN` is set when it starts, or can be asked for and is seen on the ports in time.
-/

namespace HuskyKernel

open Wp Ghost

namespace Acpi

/-- What `acpiEnable` calls, and the globals it reads. -/
structure Calls (μ : Type → Type) where
  acpi : μ Acpi
  inw : Word → μ (BitVec 16)
  outb : Word → Byte → μ Unit
  sleep : Word → μ Unit
  wrstr : String → μ Unit

namespace Calls

section Program

variable {μ : Type → Type} [Monad μ] (c : Calls μ)

/-- The polls of one port, with `n` of 300 rounds left: the rounds gone through in the end. -/
def await (p : Word) : ℕ → μ ℕ
  | 0 => return 300
  | n + 1 => do
      let v ← c.inw p
      if v &&& (← c.acpi).sciEn = 1 then return 300 - (n + 1)
      else
        c.sleep 10
        await p n

/-- What the rounds gone through say. -/
def report (i : ℕ) : μ ℤ :=
  if i < 300 then do
    c.wrstr "enabled acpi.\n"
    return 0
  else do
    c.wrstr "couldn't enable acpi.\n"
    return -1

/-- `acpiEnable`. -/
def acpiEnable : μ ℤ := do
  let g ← c.acpi
  let v ← c.inw g.pm1aCnt
  if v &&& g.sciEn = 0 then
    if g.smiCmd ≠ 0 ∧ g.acpiEnable ≠ 0 then
      c.outb g.smiCmd g.acpiEnable
      let mut i ← c.await g.pm1aCnt 300
      if g.pm1bCnt ≠ 0 then
        i ← c.await g.pm1bCnt (300 - i)
      c.report i
    else
      c.wrstr "no known way to enable acpi.\n"
      return -1
  else return 0

end Program

/-- The driver's own calls. -/
def driver (hw : Hardware) (getTimeInSeconds : Word) : Calls Driver where
  acpi := do return (← get).acpi
  inw := Acpi.inw hw
  outb p v := note (.outb (port p) v)
  sleep := Acpi.sleep hw getTimeInSeconds
  wrstr := Acpi.wrstr

/-- The driver's calls, with the sleeps counted. -/
def counting (hw : Hardware) (getTimeInSeconds : Word) :
    Calls (EStateM Hang (State × ℕ)) where
  acpi := lift (driver hw getTimeInSeconds).acpi
  inw p := lift ((driver hw getTimeInSeconds).inw p)
  outb p v := lift ((driver hw getTimeInSeconds).outb p v)
  sleep d := do
    lift ((driver hw getTimeInSeconds).sleep d)
    Ghost.note (· + 1)
  wrstr text := lift ((driver hw getTimeInSeconds).wrstr text)

variable {hw : Hardware} {getTimeInSeconds : Word}

theorem await_driver (p : Word) : ∀ n,
    (driver hw getTimeInSeconds).await p n = awaitEnabled hw getTimeInSeconds p n
  | 0 => rfl
  | n + 1 => by
      rw [await, awaitEnabled, await_driver p n]
      rfl

/-- The driver runs this program. -/
theorem acpiEnable_driver :
    (driver hw getTimeInSeconds).acpiEnable = enable hw getTimeInSeconds := by
  unfold acpiEnable enable
  simp only [await_driver]
  rfl

section Erase

variable {ε σ γ : Type}

/-- Without the ghost, the calls `c` are the calls `d`. -/
structure ErasesTo (c : Calls (EStateM ε (σ × γ))) (d : Calls (EStateM ε σ)) : Prop where
  acpi : Erases c.acpi d.acpi
  inw : ∀ p, Erases (c.inw p) (d.inw p)
  outb : ∀ p v, Erases (c.outb p v) (d.outb p v)
  sleep : ∀ n, Erases (c.sleep n) (d.sleep n)
  wrstr : ∀ text, Erases (c.wrstr text) (d.wrstr text)

variable {c : Calls (EStateM ε (σ × γ))} {d : Calls (EStateM ε σ)}

theorem ErasesTo.await (h : ErasesTo c d) (p : Word) : ∀ n, Erases (c.await p n) (d.await p n)
  | 0 => .pure 300
  | n + 1 => (h.inw p).bind fun _ => h.acpi.bind fun _ =>
      (Erases.pure _).ite ((h.sleep 10).bind fun _ => h.await p n)

theorem ErasesTo.report (h : ErasesTo c d) (i : ℕ) : Erases (c.report i) (d.report i) :=
  ((h.wrstr _).bind fun _ => .pure 0).ite ((h.wrstr _).bind fun _ => .pure (-1))

/-- **A ghost variable changes nothing else.** -/
theorem ErasesTo.acpiEnable (h : ErasesTo c d) : Erases c.acpiEnable d.acpiEnable := by
  refine h.acpi.bind fun g => (h.inw g.pm1aCnt).bind fun v => Erases.ite ?_ (.pure 0)
  refine Erases.ite ?_ ((h.wrstr _).bind fun _ => .pure (-1))
  refine (h.outb _ _).bind fun _ => (h.await g.pm1aCnt 300).bind fun i => ?_
  exact Erases.ite ((h.await g.pm1bCnt (300 - i)).bind h.report) (h.report i)

end Erase

/-- Counting changes nothing else. -/
theorem counting_erasesTo :
    ErasesTo (counting hw getTimeInSeconds) (driver hw getTimeInSeconds) where
  acpi := .lift (driver hw getTimeInSeconds).acpi
  inw p := .lift ((driver hw getTimeInSeconds).inw p)
  outb p v := .lift ((driver hw getTimeInSeconds).outb p v)
  sleep n := by
    have h := (Erases.lift (γ := ℕ) ((driver hw getTimeInSeconds).sleep n)).bind
      fun _ => Erases.note (· + 1)
    rwa [bind_pure_unit] at h
  wrstr text := .lift ((driver hw getTimeInSeconds).wrstr text)

end Calls

/-! ## Polling a port -/

/-- `SCI_EN`, in what a control port answers. -/
def SciEn (v : BitVec 16) : Prop := v.getLsbD 0 = true

instance (v : BitVec 16) : Decidable (SciEn v) := inferInstanceAs (Decidable (_ = _))

/-- What a port answers after `log` and `j` polls of it. -/
def poll (hw : Hardware) (log : List Event) (p : Word) (j : ℕ) : BitVec 16 :=
  hw.inw (log ++ List.replicate j (.inw (port p))) (port p)

/-- Polling a port after `log` sees `SCI_EN` after `f` polls that do not. -/
structure Sees (hw : Hardware) (log : List Event) (p : Word) (f : ℕ) : Prop where
  unset : ∀ j < f, ¬ SciEn (poll hw log p j)
  set : SciEn (poll hw log p f)

/-- The state after `j` polls of a port. -/
def State.polled (s : State) (p : Word) (j : ℕ) : State :=
  { s with log := s.log ++ List.replicate j (.inw (port p)) }

section Polls

variable {hw : Hardware} {getTimeInSeconds p : Word} {s : State} {k f n : ℕ}

theorem and_one_eq_one_iff (v : BitVec 16) : v &&& 1 = 1 ↔ SciEn v := by
  rw [SciEn, show (1 : BitVec 16) = 1#16 from rfl, BitVec.and_one_eq_setWidth_ofBool_getLsbD]
  cases v.getLsbD 0 <;> decide

theorem and_one_eq_zero_iff (v : BitVec 16) : v &&& 1 = 0 ↔ ¬ SciEn v := by
  rw [SciEn, show (1 : BitVec 16) = 1#16 from rfl, BitVec.and_one_eq_setWidth_ofBool_getLsbD]
  cases v.getLsbD 0 <;> decide

theorem poll_polled (j : ℕ) : poll hw (s.polled p 1).log p j = poll hw s.log p (j + 1) := by
  rw [poll, poll, State.polled, List.append_assoc, ← List.replicate_add, Nat.add_comm 1 j]

theorem polled_polled (i j : ℕ) : (s.polled p i).polled p j = s.polled p (i + j) := by
  simp only [State.polled, List.append_assoc, ← List.replicate_add]

theorem polled_zero : s.polled p 0 = s := by
  simp only [State.polled, List.replicate_zero, List.append_nil]

/-- The first poll shows `SCI_EN` at once, or it is one that does not. -/
theorem sees_succ_iff : Sees hw s.log p (f + 1) ↔
    ¬ SciEn (poll hw s.log p 0) ∧ Sees hw (s.polled p 1).log p f := by
  constructor
  · rintro ⟨hunset, hset⟩
    refine ⟨hunset 0 (Nat.succ_pos f), fun j hj => ?_, ?_⟩
    · rw [poll_polled]
      exact hunset (j + 1) (Nat.succ_lt_succ hj)
    · rwa [poll_polled]
  · rintro ⟨hfirst, hunset, hset⟩
    rw [poll_polled] at hset
    refine ⟨fun j hj => ?_, hset⟩
    cases j with
    | zero => exact hfirst
    | succ j =>
      rw [← poll_polled]
      exact hunset j (Nat.lt_of_succ_lt_succ hj)

namespace Calls

variable (hsleep : ∀ s, Acpi.sleep hw getTimeInSeconds 10 s = .ok () s)

include hsleep

/-- **One round**: a poll, and a sleep if it does not show `SCI_EN`. -/
theorem await_succ (hs : s.acpi.sciEn = 1) :
    (counting hw getTimeInSeconds).await p (n + 1) (s, k) =
      if SciEn (poll hw s.log p 0) then .ok (300 - (n + 1)) (s.polled p 1, k)
      else (counting hw getTimeInSeconds).await p n (s.polled p 1, k + 1) := by
  have hinw : (counting hw getTimeInSeconds).inw p (s, k) =
      .ok (poll hw s.log p 0) (s.polled p 1, k) := by
    rw [poll, List.replicate_zero, List.append_nil]
    rfl
  have hacpi : (counting hw getTimeInSeconds).acpi (s.polled p 1, k) =
      .ok s.acpi (s.polled p 1, k) := rfl
  have hwait : (counting hw getTimeInSeconds).sleep 10 (s.polled p 1, k) =
      .ok () (s.polled p 1, k + 1) := bind_of_ok (lift_of_ok (hsleep _))
  rw [await, bind_of_ok hinw, bind_of_ok hacpi, hs]
  by_cases hset : SciEn (poll hw s.log p 0)
  · rw [if_pos ((and_one_eq_one_iff _).mpr hset), if_pos hset]
    rfl
  · rw [if_neg (mt (and_one_eq_one_iff _).mp hset), if_neg hset, bind_of_ok hwait]

/-- The polls of one port, if they show `SCI_EN` in time… -/
theorem await_of_sees (hs : s.acpi.sciEn = 1) (h : Sees hw s.log p f) (hf : f < n) :
    (counting hw getTimeInSeconds).await p n (s, k) =
      .ok (300 - (n - f)) (s.polled p (f + 1), k + f) := by
  induction n generalizing s k f with
  | zero => exact absurd hf (Nat.not_lt_zero f)
  | succ n ih =>
    rw [await_succ hsleep hs]
    cases f with
    | zero =>
      rw [if_pos h.set]
      rfl
    | succ f =>
      obtain ⟨hfirst, hrest⟩ := sees_succ_iff.mp h
      rw [if_neg hfirst, ih (s := s.polled p 1) hs hrest (Nat.lt_of_succ_lt_succ hf), polled_polled,
        Nat.add_sub_add_right, Nat.add_comm 1 (f + 1), Nat.add_assoc k 1 f, Nat.add_comm 1 f]

/-- …and if they do not. -/
theorem await_of_not_sees (hs : s.acpi.sciEn = 1) (h : ∀ f < n, ¬ Sees hw s.log p f) :
    (counting hw getTimeInSeconds).await p n (s, k) = .ok 300 (s.polled p n, k + n) := by
  induction n generalizing s k with
  | zero =>
    rw [polled_zero]
    rfl
  | succ n ih =>
    have hfirst : ¬ SciEn (poll hw s.log p 0) := fun hset =>
      h 0 (Nat.succ_pos n) ⟨fun j hj => absurd hj (Nat.not_lt_zero j), hset⟩
    have hrest : ∀ f < n, ¬ Sees hw (s.polled p 1).log p f := fun f hf hsees =>
      h (f + 1) (Nat.succ_lt_succ hf) (sees_succ_iff.mpr ⟨hfirst, hsees⟩)
    rw [await_succ hsleep hs, if_neg hfirst, ih (s := s.polled p 1) hs hrest, polled_polled,
      Nat.add_comm 1 n, Nat.add_right_comm, Nat.add_assoc k]

/-- Both. -/
theorem wp_await (hs : s.acpi.sciEn = 1) {Q : ℕ → State × ℕ → Prop}
    (hsees : ∀ f < n, Sees hw s.log p f → Q (300 - (n - f)) (s.polled p (f + 1), k + f))
    (hnot : (∀ f < n, ¬ Sees hw s.log p f) → Q 300 (s.polled p n, k + n)) :
    wp ((counting hw getTimeInSeconds).await p n) Q (fun _ _ => False) (s, k) := by
  by_cases h : ∃ f < n, Sees hw s.log p f
  · obtain ⟨f, hf, hf'⟩ := h
    exact (wp_of_ok (await_of_sees hsleep hs hf' hf)).mpr (hsees f hf hf')
  · have hnone : ∀ f < n, ¬ Sees hw s.log p f := fun f hf hf' => h ⟨f, hf, hf'⟩
    exact (wp_of_ok (await_of_not_sees hsleep hs hnone)).mpr (hnot hnone)

end Calls

end Polls

/-! ## The handshake -/

section Handshake

variable {hw : Hardware} {getTimeInSeconds : Word} {s : State}

/-- The firmware has been asked to enable ACPI. -/
def State.asked (s : State) : State :=
  { s with log := s.log ++ [.outb (port s.acpi.smiCmd) s.acpi.acpiEnable] }

/-- Both ports show `SCI_EN`, PM1b only if there is one, with fewer than 300 polls that do not. -/
def InTime (hw : Hardware) (s : State) : Prop :=
  ∃ f < 300, Sees hw s.log s.acpi.pm1aCnt f ∧
    (s.acpi.pm1bCnt ≠ 0 →
      ∃ g, f + g < 300 ∧ Sees hw (s.polled s.acpi.pm1aCnt (f + 1)).log s.acpi.pm1bCnt g)

/-- ACPI is enabled, or it can be and is. -/
def Enables (hw : Hardware) (s : State) : Prop :=
  SciEn (poll hw s.log s.acpi.pm1aCnt 0) ∨
    s.acpi.smiCmd ≠ 0 ∧ s.acpi.acpiEnable ≠ 0 ∧ InTime hw (s.polled s.acpi.pm1aCnt 1).asked

/-- `Sees` is about the first poll to show `SCI_EN`: there is only one. -/
theorem Sees.unique {log : List Event} {p : Word} {f f' : ℕ} (h : Sees hw log p f)
    (h' : Sees hw log p f') : f = f' := by
  by_contra hne
  rcases Nat.lt_or_gt_of_ne hne with hlt | hlt
  · exact h'.unset f hlt h.set
  · exact h.unset f' hlt h'.set

namespace Calls

/-- How an `acpiEnable` ends that is to return 0 exactly if `P`. -/
def Ends (P : Prop) (r : ℤ) (t : State × ℕ) : Prop := t.2 ≤ 300 ∧ (r = 0 ∨ r = -1) ∧ (r = 0 ↔ P)

theorem wp_report {P : Prop} {i k : ℕ} (hk : k ≤ 300) (hi : i < 300 ↔ P) :
    wp ((counting hw getTimeInSeconds).report i) (Ends P) (fun _ _ => False) (s, k) := by
  rw [report, wp_ite]
  exact ⟨fun hlt => ⟨hk, Or.inl rfl, iff_of_true rfl (hi.mp hlt)⟩,
    fun hge => ⟨hk, Or.inr rfl, iff_of_false (by decide) (mt hi.mpr hge)⟩⟩

/-- **The two waits share their rounds.** -/
theorem wp_waits (hsleep : ∀ s, Acpi.sleep hw getTimeInSeconds 10 s = .ok () s)
    (hs : s.acpi.sciEn = 1) :
    wp (do
      let i ← (counting hw getTimeInSeconds).await s.acpi.pm1aCnt 300
      if s.acpi.pm1bCnt ≠ 0 then do
        let i ← (counting hw getTimeInSeconds).await s.acpi.pm1bCnt (300 - i)
        (counting hw getTimeInSeconds).report i
      else (counting hw getTimeInSeconds).report i)
      (Ends (InTime hw s)) (fun _ _ => False) (s, 0) := by
  rw [wp_bind]
  refine wp_await hsleep hs (fun f hf hsees => ?_) fun hnone => ?_
  · rw [show 300 - (300 - f) = f by omega, Nat.zero_add, wp_ite]
    refine ⟨fun hb => ?_, fun hb => wp_report (by omega) (iff_of_true hf ⟨f, hf, hsees, hb.elim⟩)⟩
    rw [wp_bind]
    refine wp_await (s := s.polled s.acpi.pm1aCnt (f + 1)) hsleep hs (fun g hg hsees' => ?_)
      fun hnone => ?_
    · exact wp_report (by omega) (iff_of_true (by omega)
        ⟨f, hf, hsees, fun _ => ⟨g, by omega, hsees'⟩⟩)
    · refine wp_report (by omega) (iff_of_false (by omega) ?_)
      rintro ⟨f', hf', hsees', hlate⟩
      obtain rfl := hsees'.unique hsees
      obtain ⟨g, hg, hseesg⟩ := hlate hb
      exact hnone g (by omega) hseesg
  · have hlate : ¬ InTime hw s := by
      rintro ⟨f, hf, hsees, -⟩
      exact hnone f hf hsees
    rw [wp_ite]
    refine ⟨fun _ => ?_, fun _ => wp_report (Nat.le_of_eq (Nat.zero_add 300))
      (iff_of_false (Nat.lt_irrefl 300) hlate)⟩
    rw [wp_bind]
    refine wp_await (s := s.polled s.acpi.pm1aCnt 300) hsleep hs
      (fun g hg _ => absurd hg (Nat.not_lt_zero g)) fun _ => ?_
    exact wp_report (Nat.le_of_eq (Nat.zero_add 300)) (iff_of_false (Nat.lt_irrefl 300) hlate)

/-- **`acpiEnable`, with its sleeps counted.** -/
theorem wp_acpiEnable (hsleep : ∀ s, Acpi.sleep hw getTimeInSeconds 10 s = .ok () s)
    (hs : s.acpi.sciEn = 1) :
    wp (counting hw getTimeInSeconds).acpiEnable (Ends (Enables hw s)) (fun _ _ => False)
      (s, 0) := by
  have hacpi : (counting hw getTimeInSeconds).acpi (s, 0) = .ok s.acpi (s, 0) := rfl
  have hinw : (counting hw getTimeInSeconds).inw s.acpi.pm1aCnt (s, 0) =
      .ok (poll hw s.log s.acpi.pm1aCnt 0) (s.polled s.acpi.pm1aCnt 1, 0) := by
    rw [poll, List.replicate_zero, List.append_nil]
    rfl
  rw [acpiEnable, wp_bind, wp_of_ok hacpi, wp_bind, wp_of_ok hinw, hs, wp_ite]
  refine ⟨fun hunset => ?_, fun hset => ?_⟩
  · have hunset := (and_one_eq_zero_iff _).mp hunset
    rw [wp_ite]
    refine ⟨fun hway => ?_, fun hway => ?_⟩
    · refine wp_mono (wp_waits (s := (s.polled s.acpi.pm1aCnt 1).asked) hsleep hs)
        (fun r t h => ⟨h.1, h.2.1, h.2.2.trans ?_⟩) fun _ _ h => h
      exact ⟨fun h => Or.inr ⟨hway.1, hway.2, h⟩, fun h => (h.resolve_left hunset).2.2⟩
    · refine ⟨Nat.zero_le 300, Or.inr rfl, iff_of_false (by decide) fun h => hway ?_⟩
      have hask := h.resolve_left hunset
      exact ⟨hask.1, hask.2.1⟩
  · exact ⟨Nat.zero_le 300, Or.inl rfl,
      iff_of_true rfl (Or.inl (not_not.mp (mt (and_one_eq_zero_iff _).mpr hset)))⟩

/-- **The handshake**: with `sleep` returning, `acpiEnable` returns, it has slept 300 times at most,
and it returns 0 exactly if ACPI is enabled, or can be and is in time. -/
theorem handshake (hw : Hardware) (getTimeInSeconds : Word) (s : State)
    (hsleep : ∀ s, Acpi.sleep hw getTimeInSeconds 10 s = .ok () s) (hs : s.acpi.sciEn = 1) :
    ∃ r t sleeps, (counting hw getTimeInSeconds).acpiEnable (s, 0) = .ok r (t, sleeps) ∧
      enable hw getTimeInSeconds s = .ok r t ∧ sleeps ≤ 300 ∧ (r = 0 ∨ r = -1) ∧
      (r = 0 ↔ Enables hw s) := by
  obtain ⟨r, ⟨t, sleeps⟩, hrun, hle, hr, hiff⟩ := wp_returns.mp (wp_acpiEnable hsleep hs)
  have hdriver := counting_erasesTo.acpiEnable.ok hrun
  rw [acpiEnable_driver] at hdriver
  exact ⟨r, t, sleeps, hrun, hdriver, hle, hr, hiff⟩

/-- Control ports that show `SCI_EN` after a while, and a clock that stands still. -/
def lateHardware : Hardware where
  inw log _ := if log.length < 200 then 0 else 1
  seconds _ := 7

/-- Globals as read from a machine with both ports. -/
def bothPorts : State :=
  ⟨⟨0xB2, 0xF0, 0xF1, 0x1004, 0x1014, 5 <<< 10, 0, 1 <<< 13, 1, 2⟩, []⟩

theorem handshake_late :
    ∃ r t sleeps, (counting lateHardware 7).acpiEnable (bothPorts, 0) = .ok r (t, sleeps) ∧
      enable lateHardware 7 bothPorts = .ok r t ∧ sleeps ≤ 300 ∧ (r = 0 ∨ r = -1) ∧
      (r = 0 ↔ Enables lateHardware bothPorts) :=
  handshake lateHardware 7 bothPorts (fun _ => rfl) rfl

end Calls

end Handshake

end Acpi

end HuskyKernel
