import HuskyKernel.BuiltIn.Layouts
import HuskyKernel.Kernel.Buffer

/-!
# Kernel/Editor — the program editor

`editor_handle_input` keeps the text in `editor.buffer`.  What `execute_buffer` runs is
`editor_buffer`, another array, with a length of its own, and the editor writes neither: a key
leaves the program to run as it is (`Same`), and as long as that is the empty one (`Vacant`) Ctrl+R
runs nothing.

`shifted` is a local pointer that nothing initialises: what it points to is set anew for each key
(`KeyPress.handle`).
-/

namespace HuskyKernel

/-- `EditorState`. -/
structure EditorState where
  buffer : List Byte
  position : ℕ
  cursorX : Word
  cursorY : Word
  isActive : Bool

/-- What the kernel does to its terminal. -/
inductive TerminalOp
  /-- `terminal_initialize`. -/
  | terminalInitialize
  | putchar (c : Byte)
  /-- `terminal_row` and `terminal_column` are assigned. -/
  | moveTo (row column : Word)

/-- `terminal_writestring`. -/
def terminalWritestring (s : List Byte) : List TerminalOp := s.map .putchar

/-- The variables of `kernel.c`; `calls` are the calls of `msh_execute` so far. -/
structure Kernel where
  editor : EditorState
  editorBuffer : List Byte
  editorBufferPos : ℕ
  ctrl : Bool
  shifted : Bool
  currentLayout : KeyboardLayout
  calls : Calls
  screen : List TerminalOp

namespace EditorState

/-- The text that has been edited. -/
def text (e : EditorState) : List Byte := e.buffer.take e.position

/-- `editor.buffer[editor.position++] = c`; `none` where that is not in the buffer. -/
def push (c : Byte) (e : EditorState) : Option EditorState :=
  if e.position < editorBufferSize then
    some { e with buffer := e.buffer.set e.position c, position := e.position + 1 }
  else none

/-- Where the line starts that `i` is in. -/
def lineStart (e : EditorState) : ℕ → ℕ
  | 0 => 0
  | i + 1 => if e.buffer.getD i 0 ≠ chr '\n' then lineStart e i else i + 1

/-- Backspace, behind the first character. -/
def backspace (e : EditorState) : EditorState :=
  let e := { e with position := e.position - 1, buffer := e.buffer.set (e.position - 1) 0 }
  if e.buffer.getD e.position 0 = chr '\n' then
    { e with
      cursorY := e.cursorY - 1
      cursorX := BitVec.ofNat 32 (e.position - e.lineStart e.position) }
  else { e with cursorX := e.cursorX - 1 }

end EditorState

namespace Kernel

/-- `terminal_writestring`, on the kernel's terminal. -/
def write (s : List Byte) (k : Kernel) : Kernel :=
  { k with screen := k.screen ++ terminalWritestring s }

/-- The full redraw. -/
def redraw (k : Kernel) : Kernel :=
  { k with screen := k.screen ++ .terminalInitialize :: terminalWritestring (cstr k.editor.buffer)
      ++ [.moveTo k.editor.cursorY k.editor.cursorX] }

/-- The end of `editor_handle_input`: the redraw, unless the key was Backspace. -/
def finish (key : Byte) (k : Kernel) : Kernel := if key ≠ 2 then k.redraw else k

/-- The character of a key: an entry of `shifted_layout` or of `us_ascii_to_layout`, or `beyond`
where the key is behind the end of its row. -/
def character (key beyond : Byte) (k : Kernel) : Byte :=
  if key < 128 then
    layoutEntry ((if k.shifted then shiftedLayout else usAsciiToLayout) k.currentLayout) key
  else beyond

/-- Leaving the editor. -/
def leave (k : Kernel) : Kernel :=
  { k with editor := { k.editor with isActive := false }, ctrl := false, shifted := false }

variable (answer : Calls → List Byte → Bool)

/-- The kernel, once `execute_buffer` has returned. -/
def executed (k : Kernel) (st : Executor) : Kernel :=
  { k with
    editorBuffer := st.buffer
    calls := k.calls ++ st.calls
    screen := k.screen ++ terminalWritestring st.screen }

/-- `execute_buffer`, on the kernel's program. -/
def execute (k : Kernel) : Option Kernel :=
  (executeBuffer (fun calls => answer (k.calls ++ calls)) k.editorBuffer k.editorBufferPos).map
    k.executed

/-- A key while Ctrl is held, by its character. -/
def ctrlKey (c : Byte) (k : Kernel) : Option Kernel :=
  if c = chr 'q' then some (k.leave.write (str "\nExited editor. Buffer contents saved.\n"))
  else if c = chr 'r' then (k.leave.write (str "\nExecuting code...\n")).execute answer
  else some ({ k with ctrl := false }.finish c)

/-- Enter. -/
def enterKey (k : Kernel) : Option Kernel :=
  (k.editor.push (chr '\n')).map fun e =>
    { k with editor := { e with cursorX := 0, cursorY := e.cursorY + 1 }, shifted := false }

/-- Backspace, which leaves out the redraw. -/
def backspaceKey (k : Kernel) : Kernel :=
  let k := { k with shifted := false }
  if k.editor.position > 0 then
    { k with editor := k.editor.backspace }.write (str "\x08 \x08")
  else k

/-- A character. -/
def characterKey (c : Byte) (k : Kernel) : Option Kernel :=
  (k.editor.push c).map fun e =>
    { k with editor := { e with cursorX := e.cursorX + 1 }, shifted := false }

/-- `editor_handle_input`, once `keyboard_read_key` has returned `key`. -/
def editorHandleInput (key beyond : Byte) (k : Kernel) : Option Kernel :=
  if key = 0 then some k
  else if key = 5 then some { k with ctrl := true, shifted := false }
  else if key = 6 ∨ key = 7 then some ({ k with shifted := true, ctrl := false }.finish key)
  else if k.ctrl then k.ctrlKey answer (k.character key beyond)
  else if key = 4 then k.enterKey.map (finish key)
  else if key = 2 then some k.backspaceKey
  else if key < 128 then
    (k.characterKey (k.character key beyond)).map (finish (k.character key beyond))
  else some (k.finish key)

end Kernel

/-- A key as the editor gets it: what `shifted` happens to point to, and what happens to lie behind
the layout tables, come with it. -/
structure KeyPress where
  key : Byte
  shifted : Bool
  beyond : Byte

namespace KeyPress

/-- The pointer `shifted` of this call. -/
def point (p : KeyPress) (k : Kernel) : Kernel := { k with shifted := p.shifted }

/-- One call of `editor_handle_input`. -/
def handle (answer : Calls → List Byte → Bool) (p : KeyPress) (k : Kernel) : Option Kernel :=
  (p.point k).editorHandleInput answer p.key p.beyond

end KeyPress

namespace Kernel

variable (answer : Calls → List Byte → Bool)

/-- The keys, handled one by one while the editor is active. -/
def typeKeys : List KeyPress → Kernel → Option Kernel
  | [], k => some k
  | p :: ps, k => if k.editor.isActive then (p.handle answer k).bind (typeKeys ps) else none

/-- `while (editor.is_active == true)`: the keys are those the loop reads before it is left. -/
def editLoop (keys : List KeyPress) (k : Kernel) : Option Kernel :=
  (typeKeys answer keys k).filter fun k => !k.editor.isActive

/-! ## What a key leaves alone -/

/-- The same program to run, and no call made. -/
structure Same (k k' : Kernel) : Prop where
  editorBuffer : k'.editorBuffer = k.editorBuffer
  editorBufferPos : k'.editorBufferPos = k.editorBufferPos
  calls : k'.calls = k.calls

/-- There is no program to run: the memory is as it was at boot. -/
structure Vacant (k : Kernel) : Prop where
  editorBuffer : k.editorBuffer = List.replicate editorBufferSize 0
  editorBufferPos : k.editorBufferPos = 0

variable {answer} {k k' k'' : Kernel}

theorem Same.trans (h : Same k k') (h' : Same k' k'') : Same k k'' where
  editorBuffer := h'.editorBuffer.trans h.editorBuffer
  editorBufferPos := h'.editorBufferPos.trans h.editorBufferPos
  calls := h'.calls.trans h.calls

theorem Same.of_some (hk : some k' = some k'') (h : Same k k') : Same k k'' :=
  Option.some_inj.mp hk ▸ h

theorem Vacant.same (h : Vacant k) (h' : Same k k') : Vacant k' where
  editorBuffer := h'.editorBuffer.trans h.editorBuffer
  editorBufferPos := h'.editorBufferPos.trans h.editorBufferPos

end Kernel

/-- The program at boot. -/
def emptyProgram : Program where
  text := []
  behind := List.replicate editorBufferSize 0
  noNul := List.not_mem_nil
  fits := by decide
  size := by rw [List.length_nil, List.length_replicate, Nat.zero_add]

namespace Kernel

variable {answer : Calls → List Byte → Bool} {k k' : Kernel}

/-- **Running the empty program runs nothing.** -/
theorem execute_of_vacant (answer : Calls → List Byte → Bool) (h : Vacant k) :
    ∃ k', k.execute answer = some k' ∧ Same k k' := by
  obtain ⟨st, hrun, _, hgood, _⟩ :=
    executeBuffer_run (fun calls => answer (k.calls ++ calls)) emptyProgram
  obtain ⟨hcalls, hbuffer⟩ := hgood rfl
  change executeBuffer _ (List.replicate editorBufferSize 0) 0 = some st at hrun
  rw [← h.editorBuffer, ← h.editorBufferPos] at hrun
  refine ⟨k.executed st, by rw [execute, hrun, Option.map_some], ?_, rfl, ?_⟩
  · change st.buffer = k.editorBuffer
    rw [hbuffer, start_buffer, h.editorBuffer]
    exact List.set_replicate_self
  · change k.calls ++ st.calls = k.calls
    rw [hcalls]
    exact List.append_nil _

theorem Same.of_finish {key : Byte} (h : Same k k') : Same k (k'.finish key) := by
  rw [finish]
  split
  · exact h.trans ⟨rfl, rfl, rfl⟩
  · exact h

theorem Same.of_map_finish {key : Byte} {o : Option Kernel} (ho : ∀ k₁ ∈ o, Same k k₁)
    (h : o.map (finish key) = some k') : Same k k' := by
  obtain ⟨k₁, hk₁, rfl⟩ := Option.map_eq_some_iff.mp h
  exact (ho k₁ hk₁).of_finish

theorem same_enterKey : ∀ k' ∈ k.enterKey, Same k k' := by
  intro k' h
  obtain ⟨e, _, rfl⟩ := Option.map_eq_some_iff.mp h
  exact ⟨rfl, rfl, rfl⟩

theorem same_characterKey {c : Byte} : ∀ k' ∈ k.characterKey c, Same k k' := by
  intro k' h
  obtain ⟨e, _, rfl⟩ := Option.map_eq_some_iff.mp h
  exact ⟨rfl, rfl, rfl⟩

theorem same_backspaceKey : Same k k.backspaceKey := by
  rw [backspaceKey]
  split <;> exact ⟨rfl, rfl, rfl⟩

/-- **What a key can do**: Ctrl+R runs the program, and every other key leaves it alone. -/
theorem editorHandleInput_cases {key beyond : Byte}
    (h : k.editorHandleInput answer key beyond = some k') :
    Same k k' ∨ (k.leave.write (str "\nExecuting code...\n")).execute answer = some k' := by
  rw [editorHandleInput] at h
  -- no key, Ctrl, Shift; a key behind Ctrl; Enter, Backspace, a character, any other key
  split_ifs at h
  · exact .inl (.of_some h ⟨rfl, rfl, rfl⟩)
  · exact .inl (.of_some h ⟨rfl, rfl, rfl⟩)
  · exact .inl (.of_some h (.of_finish ⟨rfl, rfl, rfl⟩))
  · rw [ctrlKey] at h
    split_ifs at h
    · exact .inl (.of_some h ⟨rfl, rfl, rfl⟩)
    · exact .inr h
    · exact .inl (.of_some h (.of_finish ⟨rfl, rfl, rfl⟩))
  · exact .inl (.of_map_finish same_enterKey h)
  · exact .inl (.of_some h same_backspaceKey)
  · exact .inl (.of_map_finish same_characterKey h)
  · exact .inl (.of_some h (.of_finish ⟨rfl, rfl, rfl⟩))

/-- A key handled with no program to run. -/
theorem same_handle {p : KeyPress} (hv : Vacant k) (h : p.handle answer k = some k') :
    Same k k' := by
  have hpoint : Same k (p.point k) := ⟨rfl, rfl, rfl⟩
  rcases editorHandleInput_cases h with hsame | hrun
  · exact hpoint.trans hsame
  · have hleave : Same (p.point k) ((p.point k).leave.write (str "\nExecuting code...\n")) :=
      ⟨rfl, rfl, rfl⟩
    obtain ⟨k₁, hk₁, hsame⟩ := execute_of_vacant answer (hv.same (hpoint.trans hleave))
    obtain rfl := Option.some_inj.mp (hk₁.symm.trans hrun)
    exact (hpoint.trans hleave).trans hsame

/-- **With no program to run, a session in the editor makes none and runs nothing** — induction on
the keys. -/
theorem same_typeKeys {keys : List KeyPress} (hv : Vacant k)
    (h : typeKeys answer keys k = some k') : Same k k' := by
  induction keys generalizing k with
  | nil => exact .of_some h ⟨rfl, rfl, rfl⟩
  | cons p ps ih =>
    rw [typeKeys] at h
    split_ifs at h
    obtain ⟨k₁, hk₁, hps⟩ := Option.bind_eq_some_iff.mp h
    have hsame := same_handle hv hk₁
    exact hsame.trans (ih (hv.same hsame) hps)

theorem same_editLoop {keys : List KeyPress} (hv : Vacant k)
    (h : editLoop answer keys k = some k') : Same k k' :=
  same_typeKeys hv (Option.filter_eq_some_iff.mp h).1

end Kernel

end HuskyKernel
