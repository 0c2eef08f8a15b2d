import HuskyKernel.Drivers.Completion
import HuskyKernel.Drivers.Rebase
import HuskyKernel.Drivers.Slots
import HuskyKernel.Logic.Answered

/-!
# Drivers/InFlight — commands the controller has and has not given back

A command is in flight from the write to `ci` that issues it until the controller lets it be seen
that it is done, by a clear bit in `ci`, or that its engine is stopped.  A call of `read` issues one
command at most, to a port it has just seen idle, in a slot with nothing in flight
(`issues_safely`); and on every run of the driver over all its ports the header and the table of a
command in flight stay what they were when it was issued (`inFlight_kept`).
-/

namespace HuskyKernel

open Mem Wp

/-- What a port answers to an access. -/
def Controller.answer (hw : Controller) (log : List Access) : Access → Word
  | .read r => hw log r
  | _ => 0

/-- The controller has been seen to have no command in slot `k`, or gets a new one. -/
def Settles (k : ℕ) : Access × Word → Prop
  | (.read .ci, v) => v.getLsbD k = false
  | (.read .cmd, v) => v &&& 0x8000 = 0
  | (.issue k' _, _) => k' = k
  | _ => False

/-- The command in slot `k`, issued with the memory `m`, is in flight. -/
def InFlight (hw : Controller) (k : ℕ) (m : Mem) (log : List Access) : Prop :=
  Since (fun e => e.1 = .issue k m) (Settles k) (answered hw.answer log)

/-- Nothing is issued. -/
def Unissuing (l : List Access) : Prop := ∀ k m, Access.issue k m ∉ l

section InFlight

variable {hw : Controller} {k : ℕ} {m : Mem} {log l : List Access} {a : Access}

/-- A command in flight after a while has been issued meanwhile, or was in flight before. -/
theorem inFlight_append (h : InFlight hw k m (log ++ l)) :
    .issue k m ∈ l ∨ InFlight hw k m log := by
  refine (Answered.since_append h).imp_left ?_
  rintro ⟨a, ha, -, rfl⟩
  exact ha

/-- Silence issues nothing. -/
theorem inFlight_of_unissuing (h : InFlight hw k m (log ++ l)) (hl : Unissuing l) :
    InFlight hw k m log := (inFlight_append h).resolve_left (hl k m)

/-- Behind an answer that settles it, nothing is in flight in a slot. -/
theorem not_inFlight_of_settles (ha : Settles k (a, hw.answer log a)) (hl : Unissuing (a :: l)) :
    ¬ InFlight hw k m (log ++ a :: l) :=
  Answered.not_since_append ha fun j hj _ heq => hl k m (by rwa [← show j = .issue k m from heq])

/-- A command that has just been issued is the one in its slot. -/
theorem inFlight_issue {k' : ℕ} {m' : Mem} :
    InFlight hw k m (log ++ [.issue k' m']) ↔
      k' = k ∧ m' = m ∨ k' ≠ k ∧ InFlight hw k m log := by
  rw [InFlight, Answered.since_concat]
  constructor
  · rintro (h | ⟨h, hne⟩)
    · obtain ⟨rfl, rfl⟩ := Access.issue.inj h
      exact .inl ⟨rfl, rfl⟩
    · exact .inr ⟨hne, h⟩
  · rintro (⟨rfl, rfl⟩ | ⟨hne, h⟩)
    · exact .inl rfl
    · exact .inr ⟨h, hne⟩

theorem Unissuing.append {l' : List Access} (h : Unissuing l) (h' : Unissuing l') :
    Unissuing (l ++ l') :=
  fun k m hm => (List.mem_append.mp hm).elim (h k m) (h' k m)

theorem unissuing_replicate_read (n : ℕ) (r : Reg) : Unissuing (List.replicate n (.read r)) :=
  fun k m hm => by cases List.eq_of_mem_replicate hm

theorem unissuing_of_leaves {s t : Hba} (h : Leaves (fun _ => False) s t) :
    ∃ l, t.log = s.log ++ l ∧ Unissuing l := by
  obtain ⟨l, hl, hnone⟩ := h.log
  exact ⟨l, hl, fun k m hm => (hnone k m hm).1⟩

end InFlight

/-! ## A call of `read` -/

namespace Drv

variable {hw : Controller} {s t : Hba} {log : List Access} {slot fuel k : ℕ} {m : Mem}
  {startl starth count buf : Word}

theorem unissuing_searched : Unissuing searched := by
  intro k m hm
  simp [searched] at hm

/-- **The slot chosen has been seen free.** -/
theorem settles_of_chosen (h : chosenSlot hw s = some slot) :
    Settles slot (.read .ci, hw (s.log ++ [.write .is 0xFFFFFFFF, .read .sact]) .ci) := by
  have hfree := (scanSlots_eq_some.mp h).1.free
  rw [BitVec.getLsbD_or, Bool.or_eq_false_iff, List.append_assoc] at hfree
  exact hfree.2

/-- Nothing is in flight in it from then on, until its command is issued. -/
theorem not_inFlight_of_chosen (h : chosenSlot hw s = some slot) {l : List Access}
    (hl : Unissuing l) : ¬ InFlight hw slot m (s.log ++ searched ++ l) := by
  have hsplit : s.log ++ searched ++ l =
      (s.log ++ [.write .is 0xFFFFFFFF, .read .sact]) ++ .read .ci :: l := by
    simp [searched]
  rw [hsplit]
  refine not_inFlight_of_settles (settles_of_chosen h) fun k m hm => ?_
  rcases List.mem_cons.mp hm with heq | hm
  · cases heq
  · exact hl k m hm

/-- What a call of `read` that starts in `s` adds to the log, whether it returns or not: it has
found no slot, or a slot on a busy port, or has issued its command. -/
inductive ReadLog (hw : Controller) (s : Hba) (startl starth count buf : Word) :
    List Access → Prop
  | none {l : List Access} (hslot : chosenSlot hw s = none) (hl : Unissuing l) :
      ReadLog hw s startl starth count buf l
  | busy {slot : ℕ} {l : List Access} (hslot : chosenSlot hw s = some slot) (hl : Unissuing l) :
      ReadLog hw s startl starth count buf (searched ++ l)
  | issued {slot n : ℕ} {l : List Access} (hslot : chosenSlot hw s = some slot)
      (hidle : IdleAt hw (s.log ++ searched) n) (hl : Unissuing l) :
      ReadLog hw s startl starth count buf (searched ++ List.replicate (n + 1) (.read .tfd) ++
        .issue slot (command s slot startl starth count buf).mem :: l)

/-- **What a call of `read` does to the log.** -/
theorem readLog_after (hw : Controller) (fuel : ℕ) (startl starth count buf : Word) (s : Hba) :
    ∃ l, (after (read hw fuel startl starth count buf) s).log = s.log ++ l ∧
      ReadLog hw s startl starth count buf l := by
  rcases read_cases hw s startl starth count buf with hnone | ⟨hsome, hbusy⟩ | ⟨slot, log, hissued⟩
  · obtain ⟨t, hleaves, hrun⟩ := read_of_none fuel startl starth count buf hnone
    obtain ⟨l, hl, hquiet⟩ := unissuing_of_leaves hleaves
    rw [after, hrun]
    exact ⟨l, hl, .none hnone hquiet⟩
  · obtain ⟨slot, hslot⟩ := Option.isSome_iff_exists.mp hsome
    have hquiet : Unissuing (List.replicate (1000000 + 1) (.read .tfd) ++
        [.printk (str "Port is hung\n")]) :=
      (unissuing_replicate_read _ _).append fun k m hm => by cases List.mem_singleton.mp hm
    rw [after, read_of_busy hslot hbusy]
    exact ⟨_, List.append_assoc _ _ _, .busy hslot hquiet⟩
  · have hwait : Keeps (Leaves fun _ => False) (fun _ => True) (awaitCommand hw slot fuel) :=
      keeps_awaitCommand
    obtain ⟨l, hl, hquiet⟩ := unissuing_of_leaves (wp_after.mp (wp_mono
      (hwait (Drv.issued s slot log startl starth count buf)) (fun _ _ ht => ht)
      fun _ _ ht => ht.2))
    have hrun : Drv.read hw fuel startl starth count buf s =
        awaitCommand hw slot fuel (Drv.issued s slot log startl starth count buf) :=
      read_of_issuedWith hissued
    obtain ⟨hchosen, n, -, hidle, rfl⟩ := hissued
    refine ⟨_, ?_, .issued hchosen hidle hquiet⟩
    rw [after, hrun]
    rw [after] at hl
    rw [hl, Drv.issued]
    simp only [List.append_assoc, List.singleton_append]

/-- **What is in flight behind a call of `read`**: its command, or what was in flight before in
another slot. -/
theorem inFlight_after_read
    (h : InFlight hw k m (after (read hw fuel startl starth count buf) s).log) :
    chosenSlot hw s ≠ some k ∧ InFlight hw k m s.log ∨
      chosenSlot hw s = some k ∧ m = (command s k startl starth count buf).mem := by
  obtain ⟨l, hlog, hl⟩ := readLog_after hw fuel startl starth count buf s
  rw [hlog] at h
  cases hl with
  | none hslot hl =>
    refine .inl ⟨fun hk => ?_, inFlight_of_unissuing h hl⟩
    exact Option.some_ne_none k (hk.symm.trans hslot)
  | @busy slot l hslot hl =>
    rw [← List.append_assoc] at h
    have hbefore := inFlight_of_unissuing (inFlight_of_unissuing h hl) unissuing_searched
    refine .inl ⟨fun hk => ?_, hbefore⟩
    obtain rfl := Option.some.inj (hslot.symm.trans hk)
    exact not_inFlight_of_chosen hslot hl h
  | @issued slot n l hslot hidle hl =>
    rw [← List.singleton_append, ← List.append_assoc, ← List.append_assoc, ← List.append_assoc] at h
    rcases inFlight_issue.mp (inFlight_of_unissuing h hl) with ⟨rfl, rfl⟩ | ⟨hne, h⟩
    · exact .inr ⟨hslot, rfl⟩
    · refine .inl ⟨fun hk => hne (Option.some.inj (hslot.symm.trans hk)), ?_⟩
      have hreads := inFlight_of_unissuing h (unissuing_replicate_read _ _)
      exact inFlight_of_unissuing hreads unissuing_searched

/-! ## Calls on a port -/

/-- A call of the driver on a port. -/
inductive Call where
  | read (startl starth count buf : Word)
  | rebase (portno : Word)

/-- The call, its waits bounded by `fuel` rounds. -/
def Call.run (hw : Controller) (fuel : ℕ) : Call → Drv Unit
  | read startl starth count buf => (fun _ => ()) <$> Drv.read hw fuel startl starth count buf
  | rebase portno => portRebase hw fuel portno

/-- Calls, one after another, up to one that does not return. -/
def runCalls (hw : Controller) (fuel : ℕ) : List Call → Drv Unit
  | [] => return ()
  | c :: cs => do
      c.run hw fuel
      runCalls hw fuel cs

/-- `a` may be done behind `log`: a command is issued right behind a look at an idle port, and in a
slot in which nothing is in flight. -/
def Allowed (hw : Controller) (log : List Access) (a : Access) : Prop :=
  ∀ k m, a = .issue k m → (∃ l, log = l ++ [.read .tfd] ∧ hw l .tfd &&& 0x88 = 0) ∧
    ∀ m', ¬ InFlight hw k m' log

/-- Everything in the log was allowed when it was done. -/
def Sequential (hw : Controller) (log : List Access) : Prop :=
  ∀ l₁ a l₂, log = l₁ ++ a :: l₂ → Allowed hw l₁ a

section Sequential

variable {l : List Access} {a : Access}

theorem sequential_nil : Sequential hw [] := fun l₁ a l₂ h => by simp at h

theorem sequential_concat (h : Sequential hw log) (ha : Allowed hw log a) :
    Sequential hw (log ++ [a]) := by
  intro l₁ b l₂ heq
  rcases List.eq_nil_or_concat l₂ with rfl | ⟨l₃, c, rfl⟩
  · obtain ⟨rfl, hb⟩ := List.append_inj' heq rfl
    rwa [← List.singleton_inj.mp hb]
  · rw [List.concat_eq_append, ← List.cons_append, ← List.append_assoc] at heq
    exact h l₁ b l₃ (List.append_inj' heq rfl).1

/-- Silence is safe. -/
theorem sequential_append (h : Sequential hw log) (hl : Unissuing l) :
    Sequential hw (log ++ l) := by
  induction l using List.reverseRecOn with
  | nil => rwa [List.append_nil]
  | append_singleton l a ih =>
    rw [← List.append_assoc]
    refine sequential_concat (ih fun k m hm => hl k m (List.mem_append_left _ hm)) ?_
    rintro k m rfl
    exact absurd (List.mem_append_right l (List.mem_singleton_self _)) (hl k m)

/-- **A call of `read` is safe.** -/
theorem sequential_readLog (h : Sequential hw s.log) (hl : ReadLog hw s startl starth count buf l) :
    Sequential hw (s.log ++ l) := by
  cases hl with
  | none _ hl => exact sequential_append h hl
  | busy _ hl => exact sequential_append h (unissuing_searched.append hl)
  | @issued slot n l hslot hidle hl =>
    have hreads : Sequential hw (s.log ++ searched ++ List.replicate (n + 1) (.read .tfd)) :=
      sequential_append (sequential_append h unissuing_searched) (unissuing_replicate_read _ _)
    rw [← List.singleton_append, ← List.append_assoc, ← List.append_assoc, ← List.append_assoc]
    refine sequential_append (sequential_concat hreads ?_) hl
    rintro k m heq
    obtain ⟨rfl, -⟩ := Access.issue.inj heq
    have hnow := hidle.idle
    rw [Busy, not_ne_iff] at hnow
    refine ⟨⟨s.log ++ searched ++ List.replicate n (.read .tfd), ?_, hnow⟩,
      fun m' => not_inFlight_of_chosen hslot (unissuing_replicate_read _ _)⟩
    rw [List.replicate_succ', ← List.append_assoc]

end Sequential

/-- What the log keeps. -/
def KeepsSequential (hw : Controller) (s t : Hba) : Prop :=
  Sequential hw s.log → Sequential hw t.log

instance : IsPreorder Hba (KeepsSequential hw) where
  refl _ := id
  trans _ _ _ h h' := h' ∘ h

theorem keepsSequential_of_leaves (h : Leaves (fun _ => False) s t) : KeepsSequential hw s t := by
  obtain ⟨l, hl, hquiet⟩ := unissuing_of_leaves h
  intro hs
  rw [hl]
  exact sequential_append hs hquiet

theorem keepsSequential_run (fuel : ℕ) (c : Call) :
    Keeps (KeepsSequential hw) (fun _ => True) (c.run hw fuel) := by
  cases c with
  | read startl starth count buf =>
    intro s
    obtain ⟨l, hlog, hl⟩ := readLog_after hw fuel startl starth count buf s
    have hsafe : KeepsSequential hw s (after (Drv.read hw fuel startl starth count buf) s) := by
      intro hs
      rw [hlog]
      exact sequential_readLog hs hl
    rw [Call.run, wp_map]
    exact wp_mono (wp_after.mpr hsafe) (fun _ _ ht => ht) fun _ _ ht => ⟨trivial, ht⟩
  | rebase portno =>
    have hrebase : Keeps (KeepsSequential hw) (fun _ => True)
        (modify (rebase portno) : Drv PUnit) := Keeps.modify fun s hs => hs
    exact (keeps_stopCmd.mono fun _ _ => keepsSequential_of_leaves).bind fun _ =>
      hrebase.bind fun _ => keeps_startCmd.mono fun _ _ => keepsSequential_of_leaves

/-- Calls, one after another — induction on the calls. -/
theorem keepsSequential_runCalls (fuel : ℕ) : ∀ cs : List Call,
    Keeps (KeepsSequential hw) (fun _ => True) (runCalls hw fuel cs)
  | [] => Keeps.pure ()
  | c :: cs => (keepsSequential_run fuel c).bind fun _ => keepsSequential_runCalls fuel cs

/-- **No command is issued to a port that has not just been seen idle, or into a slot that has a
command in flight**: in every run of calls on a port, with every controller. -/
theorem issues_safely (hw : Controller) (fuel : ℕ) (cs : List Call) (port : HbaPort) (m : Mem) :
    Sequential hw (after (runCalls hw fuel cs) ⟨port, m, [], []⟩).log := by
  have hkeeps : Keeps (KeepsSequential hw) (fun _ => True) (runCalls hw fuel cs) :=
    keepsSequential_runCalls fuel cs
  have hlog := wp_mono (hkeeps ⟨port, m, [], []⟩) (fun _ _ ht => ht) fun _ _ ht => ht.2
  exact wp_after.mp hlog sequential_nil

/-- `start_cmd` goes on once it has seen the engine stopped — induction on the rounds. -/
theorem wp_awaitIdle : ∀ (n : ℕ) (s : Hba), wp (awaitIdle hw n)
    (fun _ t => ∃ log, t.log = log ++ [.read .cmd] ∧ hw log .cmd &&& 0x8000 = 0)
    (fun _ _ => True) s
  | 0, _ => trivial
  | n + 1, s => by
      rw [awaitIdle, wp_bind, wp_readReg, wp_ite]
      exact ⟨fun _ => wp_awaitIdle n _, fun hidle => ⟨s.log, rfl, not_not.mp hidle⟩⟩

/-- **A port that has been set up has nothing in flight.** -/
theorem not_inFlight_of_portRebase {p : Word} (h : portRebase hw fuel p s = .ok () t) :
    ¬ InFlight hw k m t.log := by
  have hspec : wp (portRebase hw fuel p) (fun _ t => ¬ InFlight hw k m t.log)
      (fun _ _ => True) s := by
    rw [portRebase, wp_bind]
    refine wp_mono (keeps_stopCmd (P := fun _ => False) s) (fun _ u _ => ?_) fun _ _ _ => trivial
    rw [wp_bind, wp_modify, startCmd, wp_bind]
    refine wp_mono (wp_awaitIdle fuel _) (fun _ v hv => ?_) fun _ _ _ => trivial
    obtain ⟨log, hlog, hidle⟩ := hv
    simp only [updateCmd, note, wp_bind, wp_readReg, wp_modify, hlog, List.append_assoc,
      List.singleton_append]
    refine not_inFlight_of_settles hidle fun k m hm => ?_
    simp at hm
  exact (wp_of_ok h).mp hspec

end Drv

/-! ## All the ports -/

/-- An address of the header or the table of slot `k` of port `p`. -/
def Own (p : Word) (k : ℕ) (x : Word) : Prop :=
  Within (header (listBase p) k) 32 x ∨ Within (tableBase p k) 256 x

/-- The driver's structures, and what has been done on each port. -/
structure Traffic extends Ahci where
  log : Word → List Access

namespace Traffic

/-- What a call for port `p` starts from. -/
def view (c : Traffic) (p : Word) : Hba := c.toAhci.view p (c.log p)

/-- Port `p` behind a call that has got to `t`. -/
def update (c : Traffic) (p : Word) (t : Hba) (ready : Word → Prop) : Traffic :=
  ⟨⟨Function.update c.ports p t.port, t.mem, ready⟩, Function.update c.log p t.log⟩

/-- What happens: a finished `port_rebase`; a call of `read` for at most 128 sectors on a port that
has been set up, returned or not; and anything else that leaves the AHCI area alone. -/
inductive Step (hw : Word → Controller) : Traffic → Traffic → Prop
  | rebase {c : Traffic} {p : Word} (hp : p.toNat < 32) {fuel : ℕ} {t : Hba}
      (hrun : Drv.portRebase (hw p) fuel p (c.view p) = .ok () t) :
      Step hw c (c.update p t fun q => q = p ∨ c.ready q)
  | read {c : Traffic} {p : Word} (hready : c.ready p) (fuel : ℕ)
      (startl starth count buf : Word) (hcount : 1 ≤ count.toNat ∧ count.toNat ≤ 128) :
      Step hw c (c.update p
        (after (Drv.read (hw p) fuel startl starth count buf) (c.view p)) c.ready)
  | other {c : Traffic} {m : Mem}
      (hm : ∀ x : Word, 0x400000 ≤ x.toNat → x.toNat < 0x44A000 → m x = c.mem x) :
      Step hw c { c with mem := m }

/-- The layout is in place, and every command in flight finds what it was issued with. -/
structure Kept (hw : Word → Controller) (c : Traffic) : Prop where
  laidOut : c.LaidOut
  own : ∀ p, c.ready p → ∀ k m, InFlight (hw p) k m (c.log p) →
    k < 32 ∧ ∀ x, Own p k x → c.mem x = m x

variable {hw : Word → Controller} {c c' : Traffic} {p q x : Word} {k j : ℕ} {m : Mem}

theorem own_iff (hp : p.toNat < 32) (hk : k < 32) : Own p k x ↔
    (0x400000 + 1024 * p.toNat + 32 * k ≤ x.toNat ∧
      x.toNat < 0x400000 + 1024 * p.toNat + 32 * k + 32) ∨
    (0x40A000 + 8192 * p.toNat + 256 * k ≤ x.toNat ∧
      x.toNat < 0x40A000 + 8192 * p.toNat + 256 * k + 256) := by
  rw [Own, within_header hp hk, within_table hp hk (by decide)]

/-- Setting up a port leaves the headers and tables of the others alone. -/
theorem rebase_own {s : Hba} (hp : p.toNat < 32) (hq : q.toNat < 32) (hpq : p ≠ q) (hk : k < 32)
    (hx : Own q k x) : (rebase p s).mem x = s.mem x := by
  have hne : p.toNat ≠ q.toNat := fun h => hpq (BitVec.eq_of_toNat_eq h)
  rw [own_iff hq hk] at hx
  rw [rebase_mem, (headers_loop hp _ 32 le_rfl).2 x (by omega) (by omega),
    memset_of_not_within (by decide), memset_of_not_within (by decide)]
  · rw [within_list hp]
    omega
  · rw [within_fis hp]
    omega

/-- **What a call of `read` for up to 128 sectors leaves alone**: the header and the table of every
slot but the one it has chosen. -/
theorem read_own {fuel : ℕ} {startl starth count buf : Word} (h : c.LaidOut) (hready : c.ready p)
    (hcount : 1 ≤ count.toNat ∧ count.toNat ≤ 128) (hq : q.toNat < 32) (hk : k < 32)
    (hne : q = p → Drv.chosenSlot (hw p) (c.view p) ≠ some k) (hx : Own q k x) :
    (after (Drv.read (hw p) fuel startl starth count buf) (c.view p)).mem x = c.mem x := by
  cases hslot : Drv.chosenSlot (hw p) (c.view p) with
  | none =>
    have hreads := Drv.reads_after (hw p) fuel startl starth count buf (c.view p)
    rw [Drv.Reads] at hreads
    simp only [hslot] at hreads
    rw [hreads.mem]
    rfl
  | some slot =>
    have hisolated := (h.isolated_iff hready fuel startl starth count buf hslot).mpr
      (.inl (by bv_omega))
    refine hisolated.others x ⟨q, hq, .inr ⟨k, hk, fun heq => ?_, hx⟩⟩
    obtain ⟨rfl, rfl⟩ := Prod.ext_iff.mp heq
    exact hne rfl hslot

/-- The command a call has built is in memory when it ends. -/
theorem mem_of_chosen {fuel : ℕ} {startl starth count buf : Word}
    (hslot : Drv.chosenSlot (hw p) (c.view p) = some k) :
    (after (Drv.read (hw p) fuel startl starth count buf) (c.view p)).mem =
      (Drv.command (c.view p) k startl starth count buf).mem := by
  have hreads := Drv.reads_after (hw p) fuel startl starth count buf (c.view p)
  rw [Drv.Reads] at hreads
  simp only [hslot] at hreads
  obtain ⟨u, -, hmem, -, -, hleaves⟩ := hreads
  exact hleaves.mem.trans hmem

/-- A step of the traffic is a step of the driver. -/
theorem toAhci_step (h : c.LaidOut) (hstep : Step hw c c') : Ahci.Step c.toAhci c'.toAhci := by
  cases hstep with
  | rebase hp hrun => exact .rebase hp hrun
  | read hready fuel startl starth count buf =>
    exact .read (h _ hready).1 hready _ fuel _ startl starth count buf
  | other hm =>
    refine .other fun p hready j hj => ?_
    obtain ⟨hp, hclb, -⟩ := h p hready
    rw [hclb]
    refine word_congr fun x hx => hm x ?_ ?_
    all_goals
      have hbounds := (within_header hp hj).mp (within_header_of_ctba hx)
      omega

/-- **Every step keeps what is in flight.** -/
theorem Kept.step (h : Kept hw c) (hstep : Step hw c c') : Kept hw c' := by
  refine ⟨h.laidOut.step (toAhci_step h.laidOut hstep), ?_⟩
  cases hstep with
  | @rebase p hp fuel t hrun =>
    intro q hq k m hflight
    change InFlight (hw q) k m (Function.update c.log p t.log q) at hflight
    by_cases hqp : q = p
    · subst hqp
      rw [Function.update_self] at hflight
      exact absurd hflight (Drv.not_inFlight_of_portRebase hrun)
    · rw [Function.update_of_ne hqp] at hflight
      have hready := Or.resolve_left hq hqp
      obtain ⟨hk, hown⟩ := h.own q hready k m hflight
      refine ⟨hk, fun x hx => ?_⟩
      change t.mem x = m x
      rw [(Drv.portRebase_ok hrun).2, rebase_own hp (h.laidOut q hready).1 (Ne.symm hqp) hk hx]
      exact hown x hx
  | @read p hready fuel startl starth count buf hcount =>
    intro q hq k m hflight
    change InFlight (hw q) k m (Function.update c.log p _ q) at hflight
    have hq32 := (h.laidOut q hq).1
    by_cases hqp : q = p
    · subst hqp
      rw [Function.update_self] at hflight
      rcases Drv.inFlight_after_read hflight with ⟨hne, hbefore⟩ | ⟨hslot, rfl⟩
      · obtain ⟨hk, hown⟩ := h.own q hq k m hbefore
        refine ⟨hk, fun x hx => ?_⟩
        exact (read_own h.laidOut hq hcount hq32 hk (fun _ => hne) hx).trans (hown x hx)
      · exact ⟨Drv.chosenSlot_lt hslot, fun x _ => congrFun (mem_of_chosen hslot) x⟩
    · rw [Function.update_of_ne hqp] at hflight
      obtain ⟨hk, hown⟩ := h.own q hq k m hflight
      refine ⟨hk, fun x hx => ?_⟩
      exact (read_own h.laidOut hready hcount hq32 hk (absurd · hqp) hx).trans (hown x hx)
  | other hm =>
    intro q hq k m hflight
    obtain ⟨hk, hown⟩ := h.own q hq k m hflight
    have hq32 := (h.laidOut q hq).1
    refine ⟨hk, fun x hx => (hm x ?_ ?_).trans (hown x hx)⟩
    all_goals
      have hbounds := (own_iff hq32 hk).mp hx
      omega

/-- **A command in flight finds what it was issued with**: on every run of the driver from a state
with no port set up, its header and its table are what they were then. -/
theorem inFlight_kept {c₀ c : Traffic} {l : List (Traffic × Traffic)}
    (hboot : ∀ p, ¬ c₀.ready p) (hrun : Steps (Step hw) c₀ l c) (hready : c.ready p)
    (hflight : InFlight (hw p) k m (c.log p)) (hx : Own p k x) : c.mem x = m x := by
  have hkept : Kept hw c := hrun.keeps (fun _ _ hstep h => h.step hstep)
    ⟨fun p hp => absurd hp (hboot p), fun p hp => absurd hp (hboot p)⟩
  exact (hkept.own p hready k m hflight).2 x hx

/-- No port set up, and nothing done. -/
def boot : Traffic := ⟨Ahci.boot, fun _ => []⟩

/-- An idle port, and no time to wait: the command has just gone out. -/
theorem inFlight_idlePort (s : Hba) (startl starth count buf : Word) :
    InFlight Drv.idlePort 0 (Drv.command s 0 startl starth count buf).mem
      (after (Drv.read Drv.idlePort 0 startl starth count buf) s).log := by
  have hslot : Drv.chosenSlot Drv.idlePort s = some 0 := by
    simp only [Drv.chosenSlot, Drv.idlePort]
    decide
  have hidle : Drv.IdleAt Drv.idlePort (s.log ++ Drv.searched) 0 :=
    ⟨fun j hj => absurd hj (Nat.not_lt_zero j), by simp [Drv.Busy, Drv.idlePort]⟩
  rw [after, Drv.read_of_issuedWith ⟨hslot, 0, by decide, hidle, rfl⟩]
  exact inFlight_issue.mpr (.inl ⟨rfl, rfl⟩)

/-- One sector on its way, in slot 0 of port 0. -/
theorem inFlight_kept_one_sector : ∃ (c : Traffic) (m : Mem),
    InFlight Drv.idlePort 0 m (c.log 0) ∧ ∀ x, Own 0 0 x → c.mem x = m x := by
  obtain ⟨t, hrun⟩ := Ahci.portRebase_idlePort 0 (boot.view 0)
  let c : Traffic := boot.update 0 t fun q => q = 0 ∨ boot.ready q
  have hsetup : Step (fun _ => Drv.idlePort) boot c := .rebase (by decide) hrun
  have hready : c.ready 0 := .inl rfl
  have hread : Step (fun _ => Drv.idlePort) c _ :=
    .read hready 0 0 0 1 0x500000 (by decide)
  have hflight := inFlight_idlePort (c.view 0) 0 0 1 0x500000
  refine ⟨_, (Drv.command (c.view 0) 0 0 0 1 0x500000).mem, ?_, fun x hx =>
    inFlight_kept (fun _ => id) (.cons hsetup (.cons hread (.nil _))) hready ?_ hx⟩
  all_goals exact hflight

end Traffic

end HuskyKernel
