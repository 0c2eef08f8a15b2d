import HuskyKernel.Kernel.Editor
import HuskyKernel.Logic.Steps

/-!
# Kernel/Prompt — `terminal_prompt`, and what `run` runs

The kernel goes from round to round of the prompt, `edit` opens the editor and `run` executes the
program.  Since nothing ever writes `editor_buffer` or its length, every kernel the prompt reaches
has no program to run (`vacant_of_reachable`), and what has been edited is what is run exactly if it
is nothing (`executed_iff`).
-/

namespace HuskyKernel

/-- One round of the prompt: the arguments `split_command` has found, and the keys the editor reads
if it is opened.  `echo` is what reading the command has put on the screen, `output` what the
command puts there if it is none of those modelled (`help`, `getkey`, `lsdisks`, `reboot`,
`shutdown`, or unknown): these leave the variables of `Kernel` alone, and if one leaves the prompt
no round follows. -/
structure Round where
  args : List (List Byte)
  keys : List KeyPress
  echo : List TerminalOp
  output : List TerminalOp

/-- The layout of a name given to `cl`. -/
def layoutOf (name : List Byte) : Option KeyboardLayout :=
  if strcmp name (str "en_us") = 0 then some .us
  else if strcmp name (str "de_de") = 0 then some .de
  else if strcmp name (str "fr_fr") = 0 then some .fr
  else if strcmp name (str "es_es") = 0 then some .es
  else if strcmp name (str "ru_ru") = 0 then some .ru
  else none

namespace Kernel

/-- `cl`, with the arguments behind it. -/
def cl (args : List (List Byte)) (k : Kernel) : Kernel :=
  match args with
  | [] => k.write (str "Usage: cl <layout_name>\n")
  | name :: _ =>
    match layoutOf name with
    | some layout =>
      { k with currentLayout := layout }.write (str "Layout changed successfully.\n")
    | none =>
      k.write (str "Invalid layout. Available layouts: en_us, de_de, fr_fr, es_es, ru_ru\n")

/-- The editor is opened. -/
def openEditor (k : Kernel) : Kernel :=
  { k with editor := { k.editor with isActive := true } }.write
    (str "Editor started. LCtrl+Q to quit, LCtrl+R to run\n")

/-- The kernel at the first prompt: `terminal_initialize`, `editor_init`. -/
def boot : Kernel where
  editor := ⟨List.replicate editorBufferSize 0, 0, 0, 0, false⟩
  editorBuffer := List.replicate editorBufferSize 0
  editorBufferPos := 0
  ctrl := false
  shifted := false
  currentLayout := .us
  calls := []
  screen := .terminalInitialize ::
    terminalWritestring (str "Terminal ready. Type 'help' for a list of commands.\n")

variable (answer : Calls → List Byte → Bool)

/-- `edit`. -/
def edit (keys : List KeyPress) (k : Kernel) : Option Kernel := editLoop answer keys k.openEditor

/-- `run`. -/
def run (k : Kernel) : Option Kernel :=
  if k.editorBufferPos > 0 then k.execute answer
  else some (k.write (str "No program to execute. Use 'edit' first.\n"))

/-- A round of `terminal_prompt`. -/
def prompt (r : Round) (k : Kernel) : Option Kernel :=
  let k := { k with screen := k.screen ++ r.echo }
  match r.args with
  | [] => some k
  | name :: args =>
    if strcmp name (str "cl") = 0 then some (k.cl args)
    else if strcmp name (str "edit") = 0 then k.edit answer r.keys
    else if strcmp name (str "run") = 0 then k.run answer
    else some { k with screen := k.screen ++ r.output }

/-- From one prompt to the next. -/
def Next (k k' : Kernel) : Prop := ∃ r, k.prompt answer r = some k'

/-- The kernels the prompt reaches. -/
def Reachable (k : Kernel) : Prop := ∃ l, Steps (Next answer) boot l k

variable {answer} {k k' : Kernel}

/-! ## No program to run -/

theorem vacant_boot : Vacant boot := ⟨rfl, rfl⟩

theorem same_cl (args : List (List Byte)) : Same k (k.cl args) := by
  cases args with
  | nil => exact ⟨rfl, rfl, rfl⟩
  | cons name args =>
    rw [cl]
    split <;> exact ⟨rfl, rfl, rfl⟩

theorem same_edit {keys : List KeyPress} (hv : Vacant k) (h : k.edit answer keys = some k') :
    Same k k' := by
  have hopen : Same k k.openEditor := ⟨rfl, rfl, rfl⟩
  exact hopen.trans (same_editLoop (hv.same hopen) h)

/-- `run` finds no program, and runs nothing. -/
theorem run_of_vacant (answer : Calls → List Byte → Bool) (hv : Vacant k) :
    ∃ k', k.run answer = some k' ∧ Same k k' := by
  refine ⟨_, if_neg ?_, rfl, rfl, rfl⟩
  rw [hv.editorBufferPos]
  exact lt_irrefl 0

/-- **With no program to run, a round of the prompt makes none and runs nothing.** -/
theorem same_prompt {r : Round} (hv : Vacant k) (h : k.prompt answer r = some k') : Same k k' := by
  have hecho : Same k { k with screen := k.screen ++ r.echo } := ⟨rfl, rfl, rfl⟩
  refine hecho.trans ?_
  rw [prompt] at h
  split at h
  · exact .of_some h ⟨rfl, rfl, rfl⟩
  · split_ifs at h
    · exact .of_some h (same_cl _)
    · exact same_edit (hv.same hecho) h
    · obtain ⟨k₁, hk₁, hsame⟩ := run_of_vacant answer (hv.same hecho)
      exact .of_some (hk₁.symm.trans h) hsame
    · exact .of_some h ⟨rfl, rfl, rfl⟩

/-- **The prompt never has a program to run.** -/
theorem vacant_of_reachable (h : Reachable answer k) : Vacant k := by
  obtain ⟨l, hl⟩ := h
  refine hl.keeps (fun a b hab ha => ?_) vacant_boot
  obtain ⟨r, hr⟩ := hab
  exact ha.same (same_prompt ha hr)

end Kernel

/-! ## What is edited and what is run -/

/-- A session in the editor, from any kernel the prompt reaches, that leaves a text. -/
structure EditorSession (answer : Calls → List Byte → Bool) where
  before : Kernel
  reachable : Kernel.Reachable answer before
  keys : List KeyPress
  last : KeyPress
  after : Kernel
  edits : before.edit answer (keys ++ [last]) = some after
  nonempty : after.editor.text ≠ []
  fits : after.editor.text.length < editorBufferSize

namespace EditorSession

variable {answer : Calls → List Byte → Bool} (s : EditorSession answer)

/-- The lines of the text. -/
def lines : List (List Byte) := s.after.editor.text.splitOn (chr '\n')

/-- From `k` to `k'`, exactly the lines of the text have been executed. -/
def Executes (k k' : Kernel) : Prop := k'.calls = (submit answer k.calls s.lines).1

/-- The last key is Ctrl+R. -/
def EndsInRun : Prop := ∃ k, Kernel.typeKeys answer s.keys s.before.openEditor = some k ∧
  k.ctrl = true ∧ (s.last.point k).character s.last.key s.last.beyond = chr 'r'

end EditorSession

section Results

variable {answer : Calls → List Byte → Bool}

theorem prefix_submit (calls : Calls) (ls : List (List Byte)) :
    calls <+: (submit answer calls ls).1 := by
  induction ls generalizing calls with
  | nil => exact List.prefix_refl _
  | cons l ls ih =>
    rw [submit]
    split_ifs
    · exact ih calls
    · exact (List.prefix_append _ _).trans (ih _)
    · exact List.prefix_append _ _

/-- Executing lines makes no call exactly if all of them are empty. -/
theorem submit_eq_self_iff {calls : Calls} {ls : List (List Byte)} :
    (submit answer calls ls).1 = calls ↔ ∀ l ∈ ls, l = [] := by
  induction ls generalizing calls with
  | nil => exact ⟨fun _ l hl => absurd hl List.not_mem_nil, fun _ => rfl⟩
  | cons l ls ih =>
    rw [submit, List.forall_mem_cons]
    by_cases hl : l = []
    · rw [if_pos hl, ih]
      exact (and_iff_right hl).symm
    · rw [if_neg hl]
      refine ⟨fun h => ?_, fun h => absurd h.1 hl⟩
      have hpre : ∃ c, calls ++ [c] <+: calls := by
        split at h
        · exact ⟨_, h ▸ prefix_submit (calls ++ [(l, true)]) ls⟩
        · exact ⟨(l, false), [], (List.append_nil _).trans h⟩
      obtain ⟨c, hc⟩ := hpre
      have hlen := hc.length_le
      rw [List.length_append, List.length_singleton] at hlen
      omega

namespace EditorSession

variable (s : EditorSession answer)

theorem vacant_after : s.after.Vacant :=
  (Kernel.vacant_of_reachable s.reachable).same
    (Kernel.same_edit (Kernel.vacant_of_reachable s.reachable) s.edits)

/-- Where no call has been made, the text has been executed exactly if it has no line to execute. -/
theorem executes_iff_of_same {k k' : Kernel} (h : k.Same k') :
    s.Executes k k' ↔ ∀ l ∈ s.lines, l = [] := by
  rw [Executes, h.calls, eq_comm, submit_eq_self_iff]

/-- **What has been edited is run — by `run`, and by the Ctrl+R that ends the session — exactly if
it has no line to run.** -/
theorem executed_iff :
    (∃ k, s.after.run answer = some k ∧ s.Executes s.after k) ∧
        (s.EndsInRun → s.Executes s.before s.after) ↔
      ∀ l ∈ s.lines, l = [] := by
  obtain ⟨k, hk, hsame⟩ := Kernel.run_of_vacant answer s.vacant_after
  have hedit := Kernel.same_edit (Kernel.vacant_of_reachable s.reachable) s.edits
  constructor
  · rintro ⟨⟨k', hk', hrun⟩, _⟩
    obtain rfl := Option.some_inj.mp (hk.symm.trans hk')
    exact (s.executes_iff_of_same hsame).mp hrun
  · intro h
    exact ⟨⟨k, hk, (s.executes_iff_of_same hsame).mpr h⟩,
      fun _ => (s.executes_iff_of_same hedit).mpr h⟩

/-- The key `x`, then Ctrl+R: `x` has been edited, and `run` runs nothing. -/
theorem not_executed_of_x : ¬ ∀ (answer : Calls → List Byte → Bool) (s : EditorSession answer),
    (∃ k, s.after.run answer = some k ∧ s.Executes s.after k) ∧
      (s.EndsInRun → s.Executes s.before s.after) := by
  intro hall
  have hedit : (Kernel.boot.edit (fun _ _ => true)
      [⟨chr 'x', false, 0⟩, ⟨5, false, 0⟩, ⟨chr 'r', false, 0⟩]).map (·.editor.text)
        = some [chr 'x'] := by decide +kernel
  obtain ⟨after, hafter, htext⟩ := Option.map_eq_some_iff.mp hedit
  let s : EditorSession fun _ _ => true :=
    { before := .boot
      reachable := ⟨[], .nil _⟩
      keys := [⟨chr 'x', false, 0⟩, ⟨5, false, 0⟩]
      last := ⟨chr 'r', false, 0⟩
      after := after
      edits := hafter
      nonempty := by rw [htext]; exact List.cons_ne_nil _ _
      fits := by rw [htext]; decide }
  obtain ⟨k, hk, hrun⟩ := (hall _ s).1
  obtain ⟨k', hk', hsame⟩ := Kernel.run_of_vacant (fun _ _ => true) s.vacant_after
  obtain rfl := Option.some_inj.mp (hk.symm.trans hk')
  have hlines : s.lines = [[chr 'x']] := by
    change after.editor.text.splitOn (chr '\n') = _
    rw [htext]
    decide
  have hempty := (s.executes_iff_of_same hsame).mp hrun [chr 'x']
    (hlines ▸ List.mem_singleton_self _)
  exact absurd hempty (List.cons_ne_nil _ _)

end EditorSession

end Results

end HuskyKernel
