import HuskyKernel.Drivers.Handshake
import HuskyKernel.Drivers.SoftOffReads
import HuskyKernel.Drivers.Tables
import HuskyKernel.Logic.Poll

/-!
# Drivers/PowerOff — which machines are switched off

`initAcpi` succeeds exactly if memory `Tells` how, whatever else is in it, and then the globals are
what it tells (`initAcpi_tells`).  `acpiPowerOff` then sends its commands unless one of the waits
for `SCI_EN` never ends: each round of a wait sees the bit, or sleeps, and `sleep` may not return
(`acpiPowerOff_sends`).  With a clock that does not happen to show the address of
`get_time_in_seconds` the first round that does not see the bit is the last (`hangs_iff`).
-/

namespace HuskyKernel

open Mem Wp

namespace Acpi

variable {m : Mem} {s t : State}

/-! ## What memory tells -/

/-- The RSDT that is gone by. -/
def rsdtOf (m : Mem) : Word := named m (candidates m)

/-- How many entries it has. -/
def entriesOf (m : Mem) : ℕ := (((m.word (rsdtOf m + 4)).toInt - 36).tdiv 4).toNat

/-- The FACP that is gone by: the first valid one in a valid RSDT. -/
structure Facp (m : Mem) (j : ℕ) : Prop where
  found : rsdtOf m ≠ 0
  rsdt : Header m (rsdtOf m) (str "RSDT")
  inside : j < entriesOf m
  valid : Header m (entry m (rsdtOf m) j) (str "FACP")
  first : ∀ i < j, ¬ Header m (entry m (rsdtOf m) i) (str "FACP")

/-- The package that is gone by: the first name in a valid DSDT, in front of its last byte. -/
structure S5At (m : Mem) (dsdt : Word) (k : ℕ) : Prop where
  header : Header m dsdt (str "DSDT")
  inside : k + 1 < bodyLength m dsdt
  name : Holds m (bodyAt dsdt k) s5Name
  first : ∀ i < k, ¬ Holds m (bodyAt dsdt i) s5Name
  aml : isName m (bodyAt dsdt k) = true

/-- Memory tells how to switch the machine off. -/
def Tells (m : Mem) (g : Acpi) : Prop :=
  ∃ j k, Facp m j ∧ S5At m (m.word (entry m (rsdtOf m) j + 40)) k ∧
    g = fromTables m (entry m (rsdtOf m) j) (bodyAt (m.word (entry m (rsdtOf m) j + 40)) k)

/-- There is one first place. -/
theorem eq_of_first {P : ℕ → Prop} {i j : ℕ} (hi : P i) (hj : P j) (hfirst : ∀ k < i, ¬ P k)
    (hfirst' : ∀ k < j, ¬ P k) : i = j := by
  rcases Nat.lt_trichotomy i j with hlt | heq | hlt
  · exact absurd hi (hfirst' i hlt)
  · exact heq
  · exact absurd hj (hfirst j hlt)

/-- **It tells one thing.** -/
theorem Tells.unique {g g' : Acpi} (h : Tells m g) (h' : Tells m g') : g = g' := by
  obtain ⟨j, k, hj, hk, rfl⟩ := h
  obtain ⟨j', k', hj', hk', rfl⟩ := h'
  obtain rfl : j = j' := eq_of_first (P := fun i => Header m (entry m (rsdtOf m) i) (str "FACP"))
    hj.valid hj'.valid hj.first hj'.first
  obtain rfl : k = k' := eq_of_first (P := fun i => Holds m (bodyAt _ i) s5Name)
    hk.name hk'.name hk.first hk'.first
  rfl

theorem Tells.sciEn {g : Acpi} (h : Tells m g) : g.sciEn = 1 := by
  obtain ⟨j, k, -, -, rfl⟩ := h
  rfl

/-! ## `initAcpi` -/

/-- It has failed, and said why. -/
def Failed (f : Driver ℤ) (s : State) : Prop :=
  ∃ texts : List (List Byte), f s = .ok (-1) { s with log := s.log ++ texts.map .wrstr }

theorem failed_fail (text : String) :
    Failed (do wrstr text; return -1) s :=
  ⟨[str text], rfl⟩

/-- The search finds a name in front of the last byte of the body, or has nothing left. -/
theorem searchS5_cases (m : Mem) (dsdt : Word) :
    (∃ k, k + 1 < bodyLength m dsdt ∧ Holds m (bodyAt dsdt k) s5Name ∧
      (∀ i < k, ¬ Holds m (bodyAt dsdt i) s5Name) ∧
      ∃ left : ℤ, 0 < left ∧
        searchS5 m (bodyLength m dsdt) (dsdt + 36) = (bodyAt dsdt k, left)) ∨
    (∀ k, k + 1 < bodyLength m dsdt → ¬ Holds m (bodyAt dsdt k) s5Name) ∧
      (searchS5 m (bodyLength m dsdt) (dsdt + 36)).2 ≤ 0 := by
  classical
  by_cases hex : ∃ k, k < bodyLength m dsdt ∧ Holds m (bodyAt dsdt k) s5Name
  · obtain ⟨hlt, hname⟩ := Nat.find_spec hex
    have hfirst : ∀ i < Nat.find hex, ¬ Holds m (bodyAt dsdt i) s5Name := fun i hi hi' =>
      Nat.find_min hex hi ⟨hi.trans hlt, hi'⟩
    have hsearch := searchS5_eq hlt hfirst hname
    by_cases hlast : Nat.find hex + 1 < bodyLength m dsdt
    · exact .inl ⟨_, hlast, hname, hfirst, _, by omega, hsearch⟩
    · refine .inr ⟨fun k hk hk' => ?_, by rw [hsearch]; dsimp only; omega⟩
      exact hfirst k (by omega) hk'
  · have hnone : ∀ k < bodyLength m dsdt, ¬ Holds m (bodyAt dsdt k) s5Name := fun k hk hk' =>
      hex ⟨k, hk, hk'⟩
    refine .inr ⟨fun k hk => hnone k (by omega), ?_⟩
    rw [(walk_searchS5 m).eq_end fun i hi => by rw [Nat.one_mul]; exact hnone i hi, searchS5]
    exact (by decide : (-1 : ℤ) ≤ 0)

/-- **The branch for the FACP** succeeds exactly if a package is told. -/
theorem atFacp_cases (m : Mem) (facp : Word) (s : State) :
    (∃ k, S5At m (m.word (facp + 40)) k ∧ atFacp m facp s =
      .ok 0 ⟨fromTables m facp (bodyAt (m.word (facp + 40)) k), s.log⟩) ∨
    (∀ k, ¬ S5At m (m.word (facp + 40)) k) ∧ Failed (atFacp m facp) s := by
  have hfails (text : String) (hread : readFacp m facp = do wrstr text; return false) :
      Failed (atFacp m facp) s := by
    refine ⟨[str text, str "no valid FACP present.\n"], ?_⟩
    rw [atFacp, hread, List.map_cons, List.append_cons]
    rfl
  by_cases hdsdt : Header m (m.word (facp + 40)) (str "DSDT")
  · have hcheck : acpiCheckHeader m (m.word (facp + 40)) (str "DSDT") = 0 :=
      (acpiCheckHeader_eq_zero_iff (by decide)).mpr hdsdt
    rcases searchS5_cases m (m.word (facp + 40)) with
      ⟨k, hinside, hname, hfirst, left, hleft, hsearch⟩ | ⟨hnone, hleft⟩
    · by_cases haml : isName m (bodyAt (m.word (facp + 40)) k) = true
      · exact .inl ⟨k, ⟨hdsdt, hinside, hname, hfirst, haml⟩,
          atFacp_of_found hdsdt hsearch hleft haml⟩
      · refine .inr ⟨fun k' hk' => ?_, hfails "\\_S5 parse error.\n" ?_⟩
        · obtain rfl : k = k' :=
              eq_of_first (P := fun i => Holds m (bodyAt (m.word (facp + 40)) i) s5Name) hname
              hk'.name hfirst hk'.first
          exact haml hk'.aml
        · rw [readFacp]
          dsimp only
          rw [if_pos hcheck, show (m.word (m.word (facp + 40) + 4) - 36).toInt.toNat =
            bodyLength m (m.word (facp + 40)) from rfl, hsearch]
          dsimp only
          rw [if_pos hleft, if_neg haml]
    · refine .inr ⟨fun k hk => hnone k hk.inside hk.name,
        hfails "\\_S5 not present.\n" ?_⟩
      rw [readFacp]
      dsimp only
      rw [if_pos hcheck, show (m.word (m.word (facp + 40) + 4) - 36).toInt.toNat =
        bodyLength m (m.word (facp + 40)) from rfl, if_neg (not_lt.mpr hleft)]
  · refine .inr ⟨fun k hk => hdsdt hk.header, hfails "DSDT invalid.\n" ?_⟩
    rw [readFacp]
    exact if_neg fun hcheck => hdsdt ((acpiCheckHeader_eq_zero_iff (by decide)).mp hcheck)

/-- **`initAcpi` succeeds exactly if memory tells how**, and sets the globals to what it tells. -/
theorem initAcpi_tells (m : Mem) (s : State) :
    (∃ g, Tells m g ∧ initAcpi m s = .ok 0 { s with acpi := g }) ∨
      (∀ g, ¬ Tells m g) ∧ Failed (initAcpi m) s := by
  classical
  have hptr : acpiGetRSDPtr m = rsdtOf m := (acpiGetRSDPtr_first m).1
  have hcheck : acpiCheckHeader m (rsdtOf m) (str "RSDT") = 0 ↔
      Header m (rsdtOf m) (str "RSDT") := acpiCheckHeader_eq_zero_iff (by decide)
  by_cases hrsdt : rsdtOf m ≠ 0 ∧ Header m (rsdtOf m) (str "RSDT")
  · have hinit : initAcpi m = tableLoop m (entriesOf m) (rsdtOf m + 36) := by
      rw [initAcpi]
      dsimp only
      rw [hptr, if_pos ⟨hrsdt.1, hcheck.mpr hrsdt.2⟩, entriesOf]
    by_cases hex : ∃ j, j < entriesOf m ∧ Header m (entry m (rsdtOf m) j) (str "FACP")
    · obtain ⟨hlt, hvalid⟩ := Nat.find_spec hex
      have hfirst : ∀ i < Nat.find hex, ¬ Header m (entry m (rsdtOf m) i) (str "FACP") :=
        fun i hi hi' => Nat.find_min hex hi ⟨hi.trans hlt, hi'⟩
      have hfacp : Facp m (Nat.find hex) := ⟨hrsdt.1, hrsdt.2, hlt, hvalid, hfirst⟩
      rw [hinit, tableLoop_eq hlt hfirst hvalid]
      rcases atFacp_cases m (entry m (rsdtOf m) (Nat.find hex)) s with
        ⟨k, hk, hrun⟩ | ⟨hnone, hfailed⟩
      · exact .inl ⟨_, ⟨_, k, hfacp, hk, rfl⟩, hrun⟩
      · refine .inr ⟨?_, hfailed⟩
        rintro g ⟨j, k, hj, hk, -⟩
        obtain rfl : Nat.find hex = j :=
          eq_of_first (P := fun i => Header m (entry m (rsdtOf m) i) (str "FACP")) hvalid hj.valid
            hfirst hj.first
        exact hnone k hk
    · refine .inr ⟨?_, ?_⟩
      · rintro g ⟨j, k, hj, -⟩
        exact hex ⟨j, hj.inside, hj.valid⟩
      · rw [hinit, (walk_tableLoop m).eq_end fun i hi hvalid => hex ⟨i, hi, hvalid⟩]
        exact failed_fail _
  · refine .inr ⟨?_, ?_⟩
    · rintro g ⟨j, k, hj, -⟩
      exact hrsdt ⟨hj.found, hj.rsdt⟩
    · rw [initAcpi]
      dsimp only
      rw [hptr, if_neg fun h => hrsdt ⟨h.1, hcheck.mp h.2⟩]
      exact failed_fail _

/-! ## What is sent -/

/-- The commands sent to the control ports. -/
def sent (log : List Event) : List (BitVec 16 × BitVec 16) :=
  log.filterMap fun
    | .outw p v => some (p, v)
    | _ => none

/-- How a machine is switched off: `SLP_TYP` and `SLP_EN`, to PM1b only if there is one. -/
def commands (g : Acpi) : List (BitVec 16 × BitVec 16) :=
  (port g.pm1aCnt, g.slpTypA ||| g.slpEn) ::
    if g.pm1bCnt ≠ 0 then [(port g.pm1bCnt, g.slpTypB ||| g.slpEn)] else []

/-- From `s` to `t` these commands have been sent, and the globals are as they were. -/
structure Sends (cs : List (BitVec 16 × BitVec 16)) (s t : State) : Prop where
  acpi : t.acpi = s.acpi
  log : ∃ l, t.log = s.log ++ l ∧ sent l = cs

theorem Sends.trans {cs ds : List (BitVec 16 × BitVec 16)} {s t u : State} (hst : Sends cs s t)
    (htu : Sends ds t u) : Sends (cs ++ ds) s u := by
  obtain ⟨l, hl, rfl⟩ := hst.log
  obtain ⟨l', hl', rfl⟩ := htu.log
  refine ⟨htu.acpi.trans hst.acpi, l ++ l', ?_, List.filterMap_append⟩
  rw [hl', hl, List.append_assoc]

instance : IsPreorder State (Sends []) where
  refl _ := ⟨rfl, [], (List.append_nil _).symm, rfl⟩
  trans _ _ _ hst htu := hst.trans htu

theorem sent_wrstr (texts : List (List Byte)) : sent (texts.map .wrstr) = [] :=
  List.filterMap_eq_nil_iff.mpr fun e he => by
    obtain ⟨text, -, rfl⟩ := List.mem_map.mp he
    rfl

theorem sends_note (e : Event) (s : State) :
    Sends (sent [e]) s { s with log := s.log ++ [e] } := ⟨rfl, [e], rfl, rfl⟩

section Quiet
variable (hw : Hardware) (getTimeInSeconds : Word)

theorem keeps_wrstr (text : String) : Keeps (Sends []) (fun _ => True) (wrstr text) :=
  fun s => sends_note (.wrstr (str text)) s

theorem keeps_inw (p : Word) : Keeps (Sends []) (fun _ => True) (inw hw p) :=
  fun s => sends_note (.inw (port p)) s

theorem keeps_sleep (d : Word) :
    Keeps (Sends []) (fun _ => True) (sleep hw getTimeInSeconds d) := by
  unfold sleep
  exact Keeps.get.bind fun _ => (Keeps.pure ()).ite (.throw trivial)

theorem keeps_awaitEnabled (p : Word) : ∀ n,
    Keeps (Sends []) (fun _ => True) (awaitEnabled hw getTimeInSeconds p n)
  | 0 => .pure 300
  | n + 1 => (keeps_inw hw p).bind fun _ => Keeps.get.bind fun _ => (Keeps.pure _).ite
      ((keeps_sleep hw getTimeInSeconds 10).bind fun _ => keeps_awaitEnabled p n)

/-- **`acpiEnable` sends no command.** -/
theorem keeps_enable : Keeps (Sends []) (fun _ => True) (enable hw getTimeInSeconds) := by
  have hreport (i : ℕ) :
      Keeps (Sends []) (fun _ => True) ((Calls.driver hw getTimeInSeconds).report i) :=
    ((keeps_wrstr _).bind fun _ => .pure 0).ite ((keeps_wrstr _).bind fun _ => .pure (-1))
  rw [← Calls.acpiEnable_driver]
  refine (Keeps.get.bind fun _ => .pure _).bind fun g => (keeps_inw hw g.pm1aCnt).bind fun v => ?_
  refine Keeps.ite (Keeps.ite ?_ ((keeps_wrstr _).bind fun _ => .pure (-1))) (.pure 0)
  refine Keeps.bind (fun s => sends_note (.outb (port g.smiCmd) g.acpiEnable) s) fun _ => ?_
  rw [Calls.await_driver]
  refine (keeps_awaitEnabled hw getTimeInSeconds g.pm1aCnt 300).bind fun i => ?_
  refine Keeps.ite ?_ (hreport i)
  rw [Calls.await_driver]
  exact (keeps_awaitEnabled hw getTimeInSeconds g.pm1bCnt (300 - i)).bind hreport

end Quiet

/-! ## Waiting -/

section Waits
variable {hw : Hardware} {getTimeInSeconds p : Word} {n k : ℕ}

/-- What a round of a wait comes to: `SCI_EN` is seen, or the sleep after it never ends. -/
def roundReport (hw : Hardware) (getTimeInSeconds p : Word) (s : State) : Option Bool :=
  if SciEn (poll hw s.log p 0) then some true
  else if getTimeInSeconds = hw.seconds (s.polled p 1).log then none else some false

/-- A wait is over in round `k`: it has seen the bit, or it sleeps for ever. -/
def Comes (hw : Hardware) (getTimeInSeconds p : Word) (s : State) (k : ℕ) (seen : Bool) : Prop :=
  Poll.Answers (roundReport hw getTimeInSeconds p) (fun s => s.polled p 1) s k seen

theorem sleep_ten (s : State) : sleep hw getTimeInSeconds 10 s =
    if getTimeInSeconds = hw.seconds s.log then .ok () s else .error .hang s := by
  have hsum : hw.seconds s.log + 10 / 100 = hw.seconds s.log := BitVec.add_zero _
  rw [sleep, bind_of_ok (m := (get : Driver State)) rfl, hsum]
  split_ifs <;> rfl

/-- **One round of a wait.** -/
theorem awaitEnabled_succ (hs : s.acpi.sciEn = 1) :
    awaitEnabled hw getTimeInSeconds p (n + 1) s =
      match roundReport hw getTimeInSeconds p s with
      | some true => .ok (300 - (n + 1)) (s.polled p 1)
      | some false => .error .hang (s.polled p 1)
      | none => awaitEnabled hw getTimeInSeconds p n (s.polled p 1) := by
  have hinw : inw hw p s = .ok (poll hw s.log p 0) (s.polled p 1) := by
    rw [poll, List.replicate_zero, List.append_nil]
    rfl
  have hget : (get : Driver State) (s.polled p 1) = .ok (s.polled p 1) (s.polled p 1) := rfl
  rw [awaitEnabled, bind_of_ok hinw, bind_of_ok hget, show (s.polled p 1).acpi.sciEn = 1 from hs,
    roundReport]
  by_cases hset : SciEn (poll hw s.log p 0)
  · rw [if_pos ((and_one_eq_one_iff _).mpr hset), if_pos hset]
    rfl
  · rw [if_neg (mt (and_one_eq_one_iff _).mp hset), if_neg hset]
    by_cases hwake : getTimeInSeconds = hw.seconds (s.polled p 1).log
    · rw [if_pos hwake, bind_of_ok ((sleep_ten _).trans (if_pos hwake))]
    · rw [if_neg hwake, bind_of_error ((sleep_ten _).trans (if_neg hwake))]

/-- **A wait**: it sees the bit, it sleeps for ever, or it goes through its rounds — induction on
them. -/
theorem awaitEnabled_cases (hw : Hardware) (getTimeInSeconds p : Word) (hs : s.acpi.sciEn = 1)
    (n : ℕ) :
    (∃ k < n, Comes hw getTimeInSeconds p s k true ∧
        awaitEnabled hw getTimeInSeconds p n s = .ok (300 - (n - k)) (s.polled p (k + 1))) ∨
      (∃ k < n, Comes hw getTimeInSeconds p s k false ∧
        awaitEnabled hw getTimeInSeconds p n s = .error .hang (s.polled p (k + 1))) ∨
      (∀ k < n, ∀ b, ¬ Comes hw getTimeInSeconds p s k b) ∧
        awaitEnabled hw getTimeInSeconds p n s = .ok 300 (s.polled p n) := by
  induction n generalizing s with
  | zero =>
    refine .inr (.inr ⟨fun k hk => absurd hk (Nat.not_lt_zero k), ?_⟩)
    rw [polled_zero]
    rfl
  | succ n ih =>
    rw [awaitEnabled_succ hs]
    cases hround : roundReport hw getTimeInSeconds p s with
    | some seen =>
      cases seen with
      | true => exact .inl ⟨0, Nat.succ_pos n, .zero hround, rfl⟩
      | false => exact .inr (.inl ⟨0, Nat.succ_pos n, .zero hround, rfl⟩)
    | none =>
      have hlater (k : ℕ) (b : Bool) : Comes hw getTimeInSeconds p s (k + 1) b ↔
          Comes hw getTimeInSeconds p (s.polled p 1) k b := Poll.Answers.succ_iff hround
      have hpolled (j : ℕ) : (s.polled p 1).polled p j = s.polled p (j + 1) := by
        rw [polled_polled, Nat.add_comm]
      dsimp only
      rcases ih (s := s.polled p 1) hs with ⟨k, hk, hcomes, hrun⟩ | ⟨k, hk, hcomes, hrun⟩ |
        ⟨hnone, hrun⟩
      · refine .inl ⟨k + 1, Nat.succ_lt_succ hk, (hlater k true).mpr hcomes, ?_⟩
        rw [hrun, hpolled, Nat.add_sub_add_right]
      · refine .inr (.inl ⟨k + 1, Nat.succ_lt_succ hk, (hlater k false).mpr hcomes, ?_⟩)
        rw [hrun, hpolled]
      · refine .inr (.inr ⟨fun k hk b hcomes => ?_, by rw [hrun, hpolled]⟩)
        cases k with
        | zero => exact absurd (hround.symm.trans hcomes.answer) (Option.some_ne_none b).symm
        | succ k => exact hnone k (Nat.lt_of_succ_lt_succ hk) b ((hlater k b).mp hcomes)

/-- One of the waits for the two ports never ends; they have 300 rounds together. -/
def WaitsHang (hw : Hardware) (getTimeInSeconds : Word) (s : State) : Prop :=
  (∃ k < 300, Comes hw getTimeInSeconds s.acpi.pm1aCnt s k false) ∨
    s.acpi.pm1bCnt ≠ 0 ∧ ∃ j < 300, Comes hw getTimeInSeconds s.acpi.pm1aCnt s j true ∧
      ∃ k < 300 - j,
        Comes hw getTimeInSeconds s.acpi.pm1bCnt (s.polled s.acpi.pm1aCnt (j + 1)) k false

/-- `acpiEnable` never returns: the firmware is asked to enable ACPI, and a wait never ends. -/
def Hangs (hw : Hardware) (getTimeInSeconds : Word) (s : State) : Prop :=
  ¬ SciEn (poll hw s.log s.acpi.pm1aCnt 0) ∧ s.acpi.smiCmd ≠ 0 ∧ s.acpi.acpiEnable ≠ 0 ∧
    WaitsHang hw getTimeInSeconds (s.polled s.acpi.pm1aCnt 1).asked

theorem returns_report (i : ℕ) (s : State) {P Q : Prop} (h : P) :
    wp ((Calls.driver hw getTimeInSeconds).report i) (fun _ _ => P) (fun _ _ => Q) s := by
  rw [Calls.report, wp_ite]
  exact ⟨fun _ => h, fun _ => h⟩

/-- **The two waits.** -/
theorem wp_waits (hs : s.acpi.sciEn = 1) :
    wp (do
      let i ← (Calls.driver hw getTimeInSeconds).await s.acpi.pm1aCnt 300
      if s.acpi.pm1bCnt ≠ 0 then do
        let i ← (Calls.driver hw getTimeInSeconds).await s.acpi.pm1bCnt (300 - i)
        (Calls.driver hw getTimeInSeconds).report i
      else (Calls.driver hw getTimeInSeconds).report i)
      (fun _ _ => ¬ WaitsHang hw getTimeInSeconds s)
      (fun _ _ => WaitsHang hw getTimeInSeconds s) s := by
  rw [Calls.await_driver, wp_bind]
  rcases awaitEnabled_cases hw getTimeInSeconds s.acpi.pm1aCnt hs 300 with
    ⟨j, hj, hseen, hrun⟩ | ⟨k, hk, hasleep, hrun⟩ | ⟨hnone, hrun⟩
  · have hleft : 300 - (300 - (300 - j)) = 300 - j := by omega
    have hfirst : ¬ ∃ k < 300, Comes hw getTimeInSeconds s.acpi.pm1aCnt s k false := by
      rintro ⟨k, -, hasleep⟩
      exact absurd (hseen.unique hasleep).2 (by decide)
    rw [wp_of_ok hrun, wp_ite]
    refine ⟨fun hb => ?_, fun hb => returns_report _ _ fun h => h.elim hfirst fun h => hb h.1⟩
    rw [Calls.await_driver, wp_bind, hleft]
    rcases awaitEnabled_cases hw getTimeInSeconds s.acpi.pm1bCnt
      (s := s.polled s.acpi.pm1aCnt (j + 1)) hs (300 - j) with
      ⟨k, hk, hseen', hrun'⟩ | ⟨k, hk, hasleep, hrun'⟩ | ⟨hnone, hrun'⟩
    · rw [wp_of_ok hrun']
      refine returns_report _ _ fun h => h.elim hfirst ?_
      rintro ⟨-, j', -, hj', k', -, hasleep⟩
      obtain rfl := (hj'.unique hseen).1
      exact absurd (hseen'.unique hasleep).2 (by decide)
    · rw [wp_of_error hrun']
      exact .inr ⟨hb, j, hj, hseen, k, hk, hasleep⟩
    · rw [wp_of_ok hrun']
      refine returns_report _ _ fun h => h.elim hfirst ?_
      rintro ⟨-, j', -, hj', k', hk', hasleep⟩
      obtain rfl := (hj'.unique hseen).1
      exact hnone k' hk' false hasleep
  · rw [wp_of_error hrun]
    exact .inl ⟨k, hk, hasleep⟩
  · have hends : ¬ WaitsHang hw getTimeInSeconds s := by
      rintro (⟨k, hk, hasleep⟩ | ⟨-, j, hj, hseen, -⟩)
      · exact hnone k hk false hasleep
      · exact hnone j hj true hseen
    rw [wp_of_ok hrun, wp_ite]
    refine ⟨fun _ => ?_, fun _ => returns_report _ _ hends⟩
    rw [Calls.await_driver, Nat.sub_self, awaitEnabled, wp_bind, wp_pure]
    exact returns_report _ _ hends

/-- **`acpiEnable` returns exactly if it does not hang.** -/
theorem wp_enable (hw : Hardware) (getTimeInSeconds : Word) (hs : s.acpi.sciEn = 1) :
    wp (enable hw getTimeInSeconds) (fun _ _ => ¬ Hangs hw getTimeInSeconds s)
      (fun _ _ => Hangs hw getTimeInSeconds s) s := by
  have hacpi : (Calls.driver hw getTimeInSeconds).acpi s = .ok s.acpi s := rfl
  have hinw : (Calls.driver hw getTimeInSeconds).inw s.acpi.pm1aCnt s =
      .ok (poll hw s.log s.acpi.pm1aCnt 0) (s.polled s.acpi.pm1aCnt 1) := by
    rw [poll, List.replicate_zero, List.append_nil]
    rfl
  rw [← Calls.acpiEnable_driver, Calls.acpiEnable, wp_bind, wp_of_ok hacpi, wp_bind,
    wp_of_ok hinw, hs, wp_ite]
  refine ⟨fun hunset => ?_, fun hset h => hset ((and_one_eq_zero_iff _).mpr h.1)⟩
  have hunset := (and_one_eq_zero_iff _).mp hunset
  rw [wp_ite]
  refine ⟨fun hway => ?_, fun hway h => hway ⟨h.2.1, h.2.2.1⟩⟩
  have hiff : Hangs hw getTimeInSeconds s ↔
      WaitsHang hw getTimeInSeconds (s.polled s.acpi.pm1aCnt 1).asked :=
    ⟨fun h => h.2.2.2, fun h => ⟨hunset, hway.1, hway.2, h⟩⟩
  rw [hiff]
  exact wp_waits (s := (s.polled s.acpi.pm1aCnt 1).asked) hs

/-- **`acpiPowerOff` sends its commands**, and nothing else, unless it hangs; then it has sent
nothing. -/
theorem acpiPowerOff_sends (hw : Hardware) (getTimeInSeconds : Word) (hs : s.acpi.sciEn = 1) :
    wp (acpiPowerOff hw getTimeInSeconds)
      (fun _ t => ¬ Hangs hw getTimeInSeconds s ∧ Sends (commands s.acpi) s t)
      (fun _ t => Hangs hw getTimeInSeconds s ∧ Sends [] s t) s := by
  have henable := wp_and (wp_enable hw getTimeInSeconds hs) (keeps_enable hw getTimeInSeconds s)
  have hnote (e : Event) {Q : Unit → State → Prop} {E : Hang → State → Prop} (u : State) :
      wp (note e) Q E u ↔ Q () { u with log := u.log ++ [e] } := Iff.rfl
  rw [acpiPowerOff, wp_bind, wp_get, wp_ite]
  refine ⟨fun h => absurd (hs.symm.trans h) (by decide), fun _ => ?_⟩
  rw [wp_bind]
  refine wp_mono henable (fun _ t ht => ?_) fun _ t ht => ⟨ht.1, ht.2.2⟩
  have hsend (cs : List (BitVec 16 × BitVec 16)) (e : List Event) (he : sent e = cs) :
      Sends cs s { t with log := t.log ++ e } := ht.2.trans ⟨rfl, e, rfl, he⟩
  by_cases hb : s.acpi.pm1bCnt ≠ 0
  · simp only [if_pos hb, wp_bind, hnote, wp_wrstr, List.append_assoc]
    refine ⟨ht.1, hsend _ _ ?_⟩
    rw [commands, if_pos hb]
    rfl
  · simp only [if_neg hb, wp_bind, hnote, wp_wrstr, List.append_assoc]
    refine ⟨ht.1, hsend _ _ ?_⟩
    rw [commands, if_neg hb]
    rfl

section Clock
variable (hclock : ∀ log, hw.seconds log ≠ getTimeInSeconds)
include hclock

/-- With a clock that does not show the address of `get_time_in_seconds`, a wait is over in its
first round. -/
theorem comes_iff {seen : Bool} : Comes hw getTimeInSeconds p s k seen ↔
    k = 0 ∧ (seen = true ↔ SciEn (poll hw s.log p 0)) := by
  have hround (s : State) : roundReport hw getTimeInSeconds p s =
      some (decide (SciEn (poll hw s.log p 0))) := by
    rw [roundReport, if_neg (hclock _).symm]
    by_cases hset : SciEn (poll hw s.log p 0)
    · rw [if_pos hset, decide_eq_true hset]
    · rw [if_neg hset, decide_eq_false hset]
  have hfirst : Comes hw getTimeInSeconds p s 0 (decide (SciEn (poll hw s.log p 0))) :=
    .zero (hround s)
  constructor
  · intro h
    obtain ⟨hk, rfl⟩ := h.unique hfirst
    exact ⟨hk, decide_eq_true_iff⟩
  · rintro ⟨rfl, hseen⟩
    rw [Bool.eq_iff_iff.mpr (hseen.trans decide_eq_true_iff.symm)]
    exact hfirst

/-- Both ports show the bit at once, or a wait never ends. -/
theorem waitsHang_iff : WaitsHang hw getTimeInSeconds s ↔
    ¬ (SciEn (poll hw s.log s.acpi.pm1aCnt 0) ∧ (s.acpi.pm1bCnt ≠ 0 →
      SciEn (poll hw (s.polled s.acpi.pm1aCnt 1).log s.acpi.pm1bCnt 0))) := by
  simp only [WaitsHang, comes_iff hclock]
  constructor
  · rintro (⟨k, -, -, hunset⟩ | ⟨hb, j, -, ⟨rfl, -⟩, k, -, -, hunset⟩) ⟨hset, hset'⟩
    · exact absurd (hunset.mpr hset) (by decide)
    · exact absurd (hunset.mpr (hset' hb)) (by decide)
  · intro h
    by_cases hset : SciEn (poll hw s.log s.acpi.pm1aCnt 0)
    · obtain ⟨hb, hunset⟩ := Classical.not_imp.mp fun hset' => h ⟨hset, hset'⟩
      exact .inr ⟨hb, 0, by decide, ⟨rfl, iff_of_true trivial hset⟩, 0, by decide, rfl,
        iff_of_false (by decide) hunset⟩
    · exact .inl ⟨0, by decide, rfl, iff_of_false (by decide) hset⟩

/-- **There is no waiting**: with such a clock `acpiEnable` returns exactly if ACPI is on when it
starts, cannot be asked for, or is on at the first poll of each port after it has been. -/
theorem enable_returns_iff (hs : s.acpi.sciEn = 1) :
    (∃ r t, enable hw getTimeInSeconds s = .ok r t) ↔
      SciEn (poll hw s.log s.acpi.pm1aCnt 0) ∨ s.acpi.smiCmd = 0 ∨ s.acpi.acpiEnable = 0 ∨
        SciEn (poll hw (s.polled s.acpi.pm1aCnt 1).asked.log s.acpi.pm1aCnt 0) ∧
          (s.acpi.pm1bCnt ≠ 0 →
            SciEn (poll hw ((s.polled s.acpi.pm1aCnt 1).asked.polled s.acpi.pm1aCnt 1).log
              s.acpi.pm1bCnt 0)) := by
  have hreturns : (∃ r t, enable hw getTimeInSeconds s = .ok r t) ↔
      ¬ Hangs hw getTimeInSeconds s := by
    have henable := wp_enable hw getTimeInSeconds hs
    cases hrun : enable hw getTimeInSeconds s with
    | ok r t => exact iff_of_true ⟨r, t, rfl⟩ ((wp_of_ok hrun).mp henable)
    | error e t =>
      refine iff_of_false ?_ (not_not.mpr ((wp_of_error hrun).mp henable))
      rintro ⟨r, u, h⟩
      cases h
  have hwaits := waitsHang_iff hclock (s := (s.polled s.acpi.pm1aCnt 1).asked)
  rw [hreturns, Hangs, hwaits, not_and_or, not_not, not_and_or, not_ne_iff, not_and_or, not_ne_iff,
    not_not]
  rfl

end Clock

/-- Ports that show the bit after a while, and a clock that stands still short of the address. -/
theorem enable_returns_iff_late :
    (∃ r t, enable Calls.lateHardware 8 Calls.bothPorts = .ok r t) ↔
      SciEn (poll Calls.lateHardware [] 0x1004 0) ∨ (0xB2 : Word) = 0 ∨ (0xF0 : Byte) = 0 ∨
        SciEn (poll Calls.lateHardware (Calls.bothPorts.polled 0x1004 1).asked.log 0x1004 0) ∧
          ((0x1014 : Word) ≠ 0 → SciEn (poll Calls.lateHardware
            ((Calls.bothPorts.polled 0x1004 1).asked.polled 0x1004 1).log 0x1014 0)) :=
  enable_returns_iff (fun _ => show (7 : Word) ≠ 8 by decide) rfl

end Waits

end Acpi

end HuskyKernel
