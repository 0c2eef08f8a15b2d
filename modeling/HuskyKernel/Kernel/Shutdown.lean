import HuskyKernel.Drivers.PowerOff
import HuskyKernel.Kernel.Console

/-!
# Kernel/Shutdown — what `reboot` and `shutdown` come to

The two commands differ in the message for a machine without ACPI, and `reboot` switches the machine
off as well.  What is sent to the control ports is decided by the tables in memory and by whether
`acpiEnable` hangs (`perform_powerOff`): nothing, or the commands the tables tell of.
-/

namespace HuskyKernel

open Wp

namespace Console

variable {w : Platform} {s : Console} {g : Acpi} {name : List Byte}

/-- The driver, once the tables have been read. -/
def told (s : Console) (g : Acpi) : Acpi.State := { s.acpi with acpi := g }

/-- The machine is switched off if memory tells how, and `acpiEnable` does not hang; there is no
return if it does. -/
structure SwitchesOff (w : Platform) (s : Console) (r : Option (Bool × Console)) : Prop where
  untold : (∀ g, ¬ Acpi.Tells s.mem g) → ∃ u, r = some (true, u) ∧ Acpi.Sends [] s.acpi u.acpi
  sends : ∀ g, Acpi.Tells s.mem g → ¬ Acpi.Hangs w.hw w.getTimeInSeconds (s.told g) →
    ∃ u, r = some (true, u) ∧ Acpi.Sends g.commands (s.told g) u.acpi
  hangs : ∀ g, Acpi.Tells s.mem g → Acpi.Hangs w.hw w.getTimeInSeconds (s.told g) →
    r = none ∧ Acpi.Sends [] (s.told g)
      (after (Acpi.acpiPowerOff w.hw w.getTimeInSeconds) (s.told g))

theorem returned_of_ok {α : Type} {f : Acpi.Driver α} {a : α} {u v : Acpi.State}
    (h : f u = .ok a v) : returned f u = some (a, v) := by rw [returned, h]

theorem returned_of_error {α : Type} {f : Acpi.Driver α} {x : Hang} {u v : Acpi.State}
    (h : f u = .error x v) : returned f u = none := by rw [returned, h]

/-- What `powerOff` does, if memory tells how. -/
theorem powerOff_told (failed : List Byte)
    (hinit : Acpi.initAcpi s.mem s.acpi = .ok 0 (s.told g)) :
    s.powerOff w failed =
      (returned (Acpi.acpiPowerOff w.hw w.getTimeInSeconds) (s.told g)).map fun r =>
        { s with acpi := r.2 }.write (str "ACPI initialization successfully.\n") := by
  rw [powerOff, returned_of_ok hinit, Option.bind_eq_bind, Option.bind_some]
  dsimp only
  rw [if_pos rfl, Option.bind_eq_bind]
  exact Option.map_eq_bind.symm

/-- …and if it does not. -/
theorem powerOff_untold {failed : List Byte} {acpi : Acpi.State}
    (hinit : Acpi.initAcpi s.mem s.acpi = .ok (-1) acpi) :
    s.powerOff w failed = some ({ s with acpi }.write failed) := by
  rw [powerOff, returned_of_ok hinit, Option.bind_eq_bind, Option.bind_some]
  dsimp only
  rw [if_neg (by decide)]
  rfl

theorem powerOff_switchesOff (w : Platform) (s : Console) (failed : List Byte) :
    SwitchesOff w s ((s.powerOff w failed).map fun u => (true, u)) := by
  rcases Acpi.initAcpi_tells s.mem s.acpi with ⟨g, hg, hinit⟩ | ⟨hnone, texts, hinit⟩
  · have hsends := Acpi.acpiPowerOff_sends (s := s.told g) w.hw w.getTimeInSeconds hg.sciEn
    rw [powerOff_told failed hinit]
    cases hrun : Acpi.acpiPowerOff w.hw w.getTimeInSeconds (s.told g) with
    | ok a t =>
      obtain ⟨hreturns, ht⟩ := (wp_of_ok hrun).mp hsends
      rw [returned_of_ok hrun]
      refine ⟨fun hnone => absurd hg (hnone g), fun g' hg' _ => ?_, fun g' hg' hhangs => ?_⟩
      · obtain rfl := hg.unique hg'
        exact ⟨_, rfl, ht⟩
      · obtain rfl := hg.unique hg'
        exact absurd hhangs hreturns
    | error x t =>
      obtain ⟨hhangs, ht⟩ := (wp_of_error hrun).mp hsends
      rw [returned_of_error hrun]
      refine ⟨fun hnone => absurd hg (hnone g), fun g' hg' hreturns => ?_, fun g' hg' _ => ?_⟩
      · obtain rfl := hg.unique hg'
        exact absurd hhangs hreturns
      · obtain rfl := hg.unique hg'
        refine ⟨rfl, ?_⟩
        rw [after, hrun]
        exact ht
  · rw [powerOff_untold hinit]
    refine ⟨fun _ => ⟨_, rfl, rfl, _, rfl, ?_⟩, fun g hg => absurd hg (hnone g),
      fun g hg => absurd hg (hnone g)⟩
    exact Acpi.sent_wrstr texts

/-- **`reboot` and `shutdown` switch the machine off exactly if memory tells how and `acpiEnable`
does not hang**, whatever state the prompt is in: then the commands the tables tell of are sent, and
else nothing is. -/
theorem perform_powerOff (e : Entry) (argCount : ℕ) (harg : s.arg 0 = some name)
    (hname : commandOf name = .reboot ∨ commandOf name = .shutdown) :
    SwitchesOff w s (s.perform w e argCount) := by
  have hmap (failed : List Byte) :
      SwitchesOff w s ((s.powerOff w failed).bind fun u => some (true, u)) := by
    have hswitches := powerOff_switchesOff w s failed
    rwa [Option.map_eq_bind] at hswitches
  rw [perform, harg, Option.bind_eq_bind, Option.bind_some]
  rcases hname with hname | hname
  · rw [hname]
    exact hmap _
  · rw [hname]
    exact hmap _

/-- `shutdown`, typed on a machine with ACPI tables. -/
def shutdownHeard : Console where
  kernel := .boot
  args := ⟨List.replicate argsSize 0x201000, List.length_replicate⟩
  savedToken := 0
  listing := ⟨(Acpi.SoftOff.image (Acpi.SoftOff.tables 60 0xC1)).store 0x201000
    (str "shutdown" ++ [0]), .boot, .empty, [], [], []⟩
  messages := []
  acpi := ⟨⟨0, 0, 0, 0, 0, 0, 0, 0, 0, 0⟩, []⟩

/-- The tables tell how. -/
theorem perform_powerOff_shutdown : (∃ g, Acpi.Tells shutdownHeard.mem g) ∧
    SwitchesOff .sample shutdownHeard (shutdownHeard.perform .sample ⟨[4], fun _ => 0, []⟩ 1) := by
  have harg : shutdownHeard.arg 0 = some (str "shutdown") :=
    Mem.cstr?_store _ _ (by decide +kernel) (by decide)
  refine ⟨?_, perform_powerOff _ 1 harg (.inr (by decide +kernel))⟩
  rcases Acpi.initAcpi_tells shutdownHeard.mem shutdownHeard.acpi with ⟨g, hg, -⟩ |
    ⟨-, texts, hfailed⟩
  · exact ⟨g, hg⟩
  · have hset : (after (Acpi.initAcpi shutdownHeard.mem) shutdownHeard.acpi).acpi.sciEn = 1 := by
      decide +kernel
    rw [after, hfailed] at hset
    exact absurd hset (show ¬ (0 : BitVec 16) = 1 by decide)

end Console

end HuskyKernel
