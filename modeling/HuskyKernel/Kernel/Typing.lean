import HuskyKernel.Kernel.Prompt
import HuskyKernel.Logic.Trace
import Mathlib.Data.List.DropRight

/-!
# Kernel/Typing — what keys do to the text in the editor

Of all that `editor_handle_input` does, one of four things happens to the text (`Effect`), and which
one can be told from the key and the kernel before it.  The cursor is counted on with every change;
it agrees with a recount of the text as long as no newline is erased (`cursor_iff`): Backspace
compares with `'\n'` the byte it has just overwritten.
-/

namespace HuskyKernel

/-- What a key does to the text. -/
inductive Effect
  | still
  | enter
  | erase
  | type (c : Byte)
deriving DecidableEq

namespace Effect

/-- The text afterwards; `none` where the buffer is left. -/
def apply : Effect → EditorState → Option EditorState
  | still, e => some e
  | enter, e => (e.push (chr '\n')).map fun e => { e with cursorX := 0, cursorY := e.cursorY + 1 }
  | erase, e => some (if e.position > 0 then e.backspace else e)
  | type c, e => (e.push c).map fun e => { e with cursorX := e.cursorX + 1 }

/-- The same on the text alone. -/
def edit : Effect → List Byte → List Byte
  | still, l => l
  | enter, l => l ++ [chr '\n']
  | erase, l => l.dropLast
  | type c, l => l ++ [c]

end Effect

namespace Kernel

/-- What the next call of `editor_handle_input` does to the text. -/
def effect (key beyond : Byte) (k : Kernel) : Effect :=
  if key = 0 ∨ key = 5 ∨ key = 6 ∨ key = 7 ∨ k.ctrl = true then .still
  else if key = 4 then .enter
  else if key = 2 then .erase
  else if key < 128 then .type (k.character key beyond)
  else .still

variable {answer : Calls → List Byte → Bool} {k k' : Kernel} {key beyond : Byte}

@[simp] theorem editor_finish : (k.finish key).editor = k.editor := by
  rw [finish]
  split <;> rfl

theorem editor_execute (h : k.execute answer = some k') : k'.editor = k.editor := by
  obtain ⟨st, _, rfl⟩ := Option.map_eq_some_iff.mp h
  rfl

/-- Behind Ctrl, no key touches the text. -/
theorem editor_ctrlKey {c : Byte} (h : k.ctrlKey answer c = some k') :
    k'.editor = { k.editor with isActive := k'.editor.isActive } := by
  rw [ctrlKey] at h
  split_ifs at h
  · rw [← Option.some.inj h]
    rfl
  · rw [editor_execute h]
    rfl
  · rw [← Option.some.inj h, editor_finish]

/-- How a call of `editor_handle_input` goes on, and what it does to the text. -/
inductive Handles (answer : Calls → List Byte → Bool) (key beyond : Byte) (k : Kernel) :
    Option Kernel → Effect → Prop
  | none (h : key = 0) : Handles answer key beyond k (some k) .still
  | ctrl (h : key = 5) :
      Handles answer key beyond k (some { k with ctrl := true, shifted := false }) .still
  | shift (h : key = 6 ∨ key = 7) : Handles answer key beyond k
      (some ({ k with shifted := true, ctrl := false }.finish key)) .still
  | command (h05 : key ≠ 0 ∧ key ≠ 5) (h67 : ¬ (key = 6 ∨ key = 7)) (hctrl : k.ctrl = true) :
      Handles answer key beyond k (k.ctrlKey answer (k.character key beyond)) .still
  | enter (hctrl : ¬ k.ctrl = true) (h : key = 4) :
      Handles answer key beyond k (k.enterKey.map (finish key)) .enter
  | erase (hctrl : ¬ k.ctrl = true) (h : key = 2) :
      Handles answer key beyond k (some k.backspaceKey) .erase
  | type (h05 : key ≠ 0 ∧ key ≠ 5) (hctrl : ¬ k.ctrl = true) (h2 : key ≠ 2) (h : key < 128) :
      Handles answer key beyond k
        ((k.characterKey (k.character key beyond)).map (finish (k.character key beyond)))
        (.type (k.character key beyond))
  | other (h05 : key ≠ 0 ∧ key ≠ 5) (hctrl : ¬ k.ctrl = true) (h2 : key ≠ 2)
      (h : ¬ key < 128) : Handles answer key beyond k (some (k.finish key)) .still

/-- Every call is one of these. -/
theorem handles (answer : Calls → List Byte → Bool) (key beyond : Byte) (k : Kernel) :
    Handles answer key beyond k (k.editorHandleInput answer key beyond) (k.effect key beyond) := by
  rw [editorHandleInput]
  split_ifs with h0 h5 h67 hctrl h4 h2 h128
  · rw [effect, if_pos (by tauto)]
    exact .none h0
  · rw [effect, if_pos (by tauto)]
    exact .ctrl h5
  · rw [effect, if_pos (by tauto)]
    exact .shift h67
  · rw [effect, if_pos (by tauto)]
    exact .command ⟨h0, h5⟩ h67 hctrl
  all_goals rw [effect, if_neg (by tauto)]
  · rw [if_pos h4]
    exact .enter hctrl h4
  · rw [if_neg h4, if_pos h2]
    exact .erase hctrl h2
  · rw [if_neg h4, if_neg h2, if_pos h128]
    exact .type ⟨h0, h5⟩ hctrl h2 h128
  · rw [if_neg h4, if_neg h2, if_neg h128]
    exact .other ⟨h0, h5⟩ hctrl h2 h128

/-- **What a key can do to the text.** -/
theorem editor_of_handle (h : k.editorHandleInput answer key beyond = some k') :
    ∃ e, (k.effect key beyond).apply k.editor = some e ∧
      k'.editor = { e with isActive := k'.editor.isActive } := by
  have hcase := handles answer key beyond k
  rw [h] at hcase
  generalize k.effect key beyond = eff at hcase ⊢
  generalize hk : some k' = r at hcase
  cases hcase with
  | none | ctrl =>
    rw [Option.some.inj hk]
    exact ⟨_, rfl, rfl⟩
  | shift | other =>
    rw [Option.some.inj hk]
    exact ⟨_, rfl, by rw [editor_finish]⟩
  | command => exact ⟨_, rfl, editor_ctrlKey hk.symm⟩
  | enter | type =>
    obtain ⟨k₁, hk₁, rfl⟩ := Option.map_eq_some_iff.mp hk.symm
    obtain ⟨e, he, rfl⟩ := Option.map_eq_some_iff.mp hk₁
    exact ⟨_, by rw [Effect.apply, he]; rfl, by rw [editor_finish]⟩
  | erase =>
    rw [Option.some.inj hk, backspaceKey, Effect.apply]
    by_cases hpos : k.editor.position > 0
    · rw [if_pos hpos]
      refine ⟨_, rfl, ?_⟩
      simp [if_pos hpos, write]
    · rw [if_neg hpos]
      refine ⟨_, rfl, ?_⟩
      simp [if_neg hpos]

end Kernel

/-! ## The text -/

/-- `editor_init`. -/
def editorInit : EditorState := ⟨List.replicate editorBufferSize 0, 0, 0, 0, false⟩

namespace EditorState

/-- The buffer is the array, and the position is in it or right behind it. -/
structure Sized (e : EditorState) : Prop where
  length : e.buffer.length = editorBufferSize
  le : e.position ≤ editorBufferSize

variable {e e' : EditorState} {c : Byte}

theorem sized_editorInit : Sized editorInit := ⟨List.length_replicate, Nat.zero_le _⟩

theorem push_eq_some (h : e.push c = some e') : e.position < editorBufferSize ∧
    e' = { e with buffer := e.buffer.set e.position c, position := e.position + 1 } := by
  rw [push] at h
  split_ifs at h with hlt
  exact ⟨hlt, (Option.some.inj h).symm⟩

theorem Sized.push (hs : Sized e) (h : e.push c = some e') : Sized e' := by
  obtain ⟨hlt, rfl⟩ := push_eq_some h
  exact ⟨(List.length_set).trans hs.length, hlt⟩

/-- One character more. -/
theorem Sized.text_push (hs : Sized e) (h : e.push c = some e') : e'.text = e.text ++ [c] := by
  obtain ⟨hlt, rfl⟩ := push_eq_some h
  have hlen : e.position < (e.buffer.set e.position c).length := by
    rw [List.length_set, hs.length]
    exact hlt
  change (e.buffer.set e.position c).take (e.position + 1) = e.buffer.take e.position ++ [c]
  rw [List.take_succ_eq_append_getElem hlen, List.getElem_set_self,
    List.take_set_of_le (Nat.le_refl _)]

/-- **Backspace never sees a newline**: the byte it looks at is the NUL it has stored. -/
theorem backspace_eq : e.backspace = { e with
    buffer := e.buffer.set (e.position - 1) 0
    position := e.position - 1
    cursorX := e.cursorX - 1 } := by
  have hzero : (e.buffer.set (e.position - 1) 0).getD (e.position - 1) 0 ≠ chr '\n' := by
    rw [List.getD_eq_getElem?_getD, List.getElem?_set_self']
    cases e.buffer[e.position - 1]? with
    | none => exact (by decide : (0 : Byte) ≠ chr '\n')
    | some b => exact (by decide : (0 : Byte) ≠ chr '\n')
  rw [backspace, if_neg hzero]

theorem Sized.backspace (hs : Sized e) : Sized e.backspace := by
  rw [backspace_eq]
  exact ⟨(List.length_set).trans hs.length, (Nat.sub_le _ _).trans hs.le⟩

theorem Sized.length_text (hs : Sized e) : e.text.length = e.position := by
  rw [text, List.length_take, hs.length, Nat.min_eq_left hs.le]

/-- One character less. -/
theorem Sized.text_backspace (hs : Sized e) : e.backspace.text = e.text.dropLast := by
  rw [backspace_eq, List.dropLast_eq_take, hs.length_text, text, text,
    List.take_set_of_le (Nat.le_refl _), List.take_take, Nat.min_eq_left (Nat.sub_le _ _)]

theorem text_of_position (h : e.position = 0) : e.text = [] := by
  rw [text, h, List.take_zero]

theorem Sized.text_ne_nil (hs : Sized e) (h : 0 < e.position) : e.text ≠ [] := by
  intro hnil
  have hlen := hs.length_text
  rw [hnil, List.length_nil] at hlen
  omega

end EditorState

namespace Effect

open EditorState

variable {e e' : EditorState} {c : Byte} {eff : Effect}

theorem sized_apply (hs : Sized e) (h : eff.apply e = some e') : Sized e' := by
  cases eff with
  | still => exact Option.some.inj h ▸ hs
  | enter =>
    obtain ⟨e₁, he₁, rfl⟩ := Option.map_eq_some_iff.mp h
    exact ⟨(hs.push he₁).length, (hs.push he₁).le⟩
  | erase =>
    rw [← Option.some.inj h]
    split
    · exact hs.backspace
    · exact hs
  | type c =>
    obtain ⟨e₁, he₁, rfl⟩ := Option.map_eq_some_iff.mp h
    exact ⟨(hs.push he₁).length, (hs.push he₁).le⟩

/-- **Inside its buffer, the editor edits a list of characters.** -/
theorem text_apply (hs : Sized e) (h : eff.apply e = some e') : e'.text = eff.edit e.text := by
  cases eff with
  | still => exact congrArg text (Option.some.inj h).symm
  | enter =>
    obtain ⟨e₁, he₁, rfl⟩ := Option.map_eq_some_iff.mp h
    have htext := hs.text_push he₁
    exact htext
  | erase =>
    obtain rfl := Option.some.inj h
    by_cases hpos : e.position > 0
    · rw [if_pos hpos]
      exact hs.text_backspace
    · rw [if_neg hpos, edit, text_of_position (by omega)]
      rfl
  | type c =>
    obtain ⟨e₁, he₁, rfl⟩ := Option.map_eq_some_iff.mp h
    have htext := hs.text_push he₁
    exact htext

end Effect

/-! ## The cursor -/

/-- The number of characters behind the last newline. -/
def column (l : List Byte) : ℕ := (l.rtakeWhile (· ≠ chr '\n')).length

theorem column_newline (l : List Byte) : column (l ++ [chr '\n']) = 0 := by
  rw [column, List.rtakeWhile_concat_neg _ _ _ (by decide)]
  rfl

theorem column_concat (l : List Byte) {c : Byte} (hc : c ≠ chr '\n') :
    column (l ++ [c]) = column l + 1 := by
  rw [column, List.rtakeWhile_concat_pos _ _ _ (by simpa using hc), List.length_append, column]
  rfl

/-- The cursor is where a recount of the text puts it. -/
def EditorState.Cursor (e : EditorState) : Prop :=
  e.cursorY = BitVec.ofNat 32 (e.text.count (chr '\n')) ∧
    e.cursorX = BitVec.ofNat 32 (column e.text)

namespace Effect

open EditorState

variable {e e' : EditorState} {c : Byte} {eff : Effect}

/-- The row and the column afterwards. -/
def move : Effect → EditorState → Word × Word
  | still, e => (e.cursorY, e.cursorX)
  | enter, e => (e.cursorY + 1, 0)
  | erase, e => (e.cursorY, if e.position > 0 then e.cursorX - 1 else e.cursorX)
  | type _, e => (e.cursorY, e.cursorX + 1)

/-- **What a key does to the cursor.** -/
theorem cursor_apply (h : eff.apply e = some e') : (e'.cursorY, e'.cursorX) = eff.move e := by
  cases eff with
  | still =>
    obtain rfl := Option.some.inj h
    rfl
  | enter =>
    obtain ⟨e₁, he₁, rfl⟩ := Option.map_eq_some_iff.mp h
    obtain ⟨_, rfl⟩ := push_eq_some he₁
    rfl
  | erase =>
    obtain rfl := Option.some.inj h
    by_cases hpos : e.position > 0
    · simp only [move, if_pos hpos, backspace_eq]
    · simp only [move, if_neg hpos]
  | type c =>
    obtain ⟨e₁, he₁, rfl⟩ := Option.map_eq_some_iff.mp h
    obtain ⟨_, rfl⟩ := push_eq_some he₁
    rfl

/-- Without its last character, which was no newline, a text ends a column earlier; without a
newline it would end a row earlier, and `cursor_y` stays. -/
theorem cursor_erase_iff (hs : Sized e) (hc : e.Cursor) (hpos : e.position > 0) :
    (e.cursorY = BitVec.ofNat 32 (e.text.dropLast.count (chr '\n')) ∧
        e.cursorX - 1 = BitVec.ofNat 32 (column e.text.dropLast)) ↔
      e.text.getLast? ≠ some (chr '\n') := by
  have hne := hs.text_ne_nil hpos
  have hlen := hs.length_text
  have hle := hs.le
  have hcount : e.text.dropLast.count (chr '\n') ≤ e.text.length :=
    List.count_le_length.trans (by rw [List.length_dropLast]; omega)
  rw [Cursor, ← List.dropLast_append_getLast hne] at hc
  rw [List.getLast?_eq_some_getLast hne, ne_eq, Option.some_inj, hc.1, hc.2]
  by_cases hnl : e.text.getLast hne = chr '\n'
  · -- one newline less in the text, and none less in `cursor_y`
    refine iff_of_false (fun h => ?_) (not_not.mpr hnl)
    have hrow := h.1
    rw [hnl, List.count_append, List.count_singleton_self] at hrow
    simp only [editorBufferSize] at hle
    bv_omega
  · refine iff_of_true ⟨?_, ?_⟩ hnl
    · rw [List.count_append, List.count_singleton, if_neg (by simpa using hnl), Nat.add_zero]
    · rw [column_concat _ hnl, BitVec.ofNat_add]
      exact BitVec.add_sub_cancel _ _

/-- **A key keeps the cursor right unless it erases a newline.** -/
theorem cursor_apply_iff (hs : Sized e) (hc : e.Cursor) (h : eff.apply e = some e')
    (hnl : eff ≠ type (chr '\n')) :
    e'.Cursor ↔ ¬ (eff = erase ∧ e.text.getLast? = some (chr '\n')) := by
  have hmove := Prod.ext_iff.mp (cursor_apply h)
  have hy : e'.cursorY = (eff.move e).1 := hmove.1
  have hx : e'.cursorX = (eff.move e).2 := hmove.2
  have htext := text_apply hs h
  rw [Cursor, htext, hy, hx]
  cases eff with
  | still => exact iff_of_true hc fun h => by cases h.1
  | enter =>
    refine iff_of_true ⟨?_, ?_⟩ (fun h => by cases h.1)
    · rw [move, hc.1, edit, List.count_append, List.count_singleton_self, BitVec.ofNat_add]
      rfl
    · rw [move, edit, column_newline]
      rfl
  | type c =>
    have hne : c ≠ chr '\n' := fun hc => hnl (hc ▸ rfl)
    refine iff_of_true ⟨?_, ?_⟩ (fun h => by cases h.1)
    · rw [move, hc.1, edit, List.count_append, List.count_singleton, if_neg (by simpa using hne),
        Nat.add_zero]
    · rw [move, hc.2, edit, column_concat _ hne, BitVec.ofNat_add]
      rfl
  | erase =>
    by_cases hpos : e.position > 0
    · rw [move, if_pos hpos, edit, cursor_erase_iff hs hc hpos]
      exact not_congr (iff_and_self.mpr fun _ => rfl)
    · have hnil : e.text = [] := text_of_position (by omega)
      rw [Cursor, hnil] at hc
      rw [move, if_neg hpos, edit, hnil]
      exact iff_of_true hc fun h => by cases h.2

end Effect

namespace Kernel

open EditorState

variable {answer : Calls → List Byte → Bool} {k k' : Kernel} {key beyond : Byte}

/-- A character that is typed is none of the control characters. -/
theorem effect_ne_type {c : Byte} (hc : c < chr ' ') (h0 : c ≠ 0) :
    k.effect key beyond ≠ .type c := by
  rw [effect]
  split_ifs with _ _ _ hkey
  · exact fun h => by cases h
  · exact fun h => by cases h
  · exact fun h => by cases h
  · intro h
    have hchar : k.character key beyond = c := Effect.type.inj h
    rw [character, if_pos hkey] at hchar
    rcases layoutEntry_cases k.shifted k.currentLayout key with hzero | hspace
    · exact h0 (hchar.symm.trans hzero)
    · rw [hchar] at hspace
      exact absurd hc (UInt8.not_lt.mpr hspace)
  · exact fun h => by cases h

/-- **A key that changes the text returns**, unless it leaves the buffer. -/
theorem handle_of_effect (answer : Calls → List Byte → Bool) {e : EditorState}
    (h : k.effect key beyond ≠ .still)
    (he : (k.effect key beyond).apply k.editor = some e) :
    ∃ k', k.editorHandleInput answer key beyond = some k' := by
  have hcase := handles answer key beyond k
  generalize k.effect key beyond = eff at hcase h he
  generalize k.editorHandleInput answer key beyond = r at hcase
  cases hcase with
  | none | ctrl | shift | command | other => exact absurd rfl h
  | erase => exact ⟨_, rfl⟩
  | enter | type =>
    obtain ⟨e₁, he₁, -⟩ := Option.map_eq_some_iff.mp he
    exact ⟨_, congrArg (fun o => Option.map _ (Option.map _ o)) he₁⟩

/-- One call of `editor_handle_input` after another: `*shifted` is a flag that is kept. -/
def handleKey (answer : Calls → List Byte → Bool) (k : Kernel) (p : Byte × Byte) : Option Kernel :=
  k.editorHandleInput answer p.1 p.2

/-- From any kernel whose cursor is right. -/
theorem cursor_iff_of_sized (hs : Sized k.editor) (hc : k.editor.Cursor)
    (keys : List (Byte × Byte)) :
    (∀ c ∈ trace (handleKey answer) k keys, ∀ k', handleKey answer c.1 c.2 = some k' →
        k'.editor.Cursor) ↔
      ∀ c ∈ trace (handleKey answer) k keys, ¬ (c.1.effect c.2.1 c.2.2 = .erase ∧
        c.1.editor.text.getLast? = some (chr '\n')) := by
  have hkey : ∀ (k k' : Kernel) p, Sized k.editor ∧ k.editor.Cursor →
      handleKey answer k p = some k' → Sized k'.editor ∧
      (k'.editor.Cursor ↔
        ¬ (k.effect p.1 p.2 = .erase ∧ k.editor.text.getLast? = some (chr '\n'))) := by
    rintro k k' p ⟨hs, hc⟩ h
    obtain ⟨e, he, hk'⟩ := editor_of_handle h
    have hiff := Effect.cursor_apply_iff hs hc he (effect_ne_type (by decide) (by decide))
    have hsized := Effect.sized_apply hs he
    rw [hk']
    exact ⟨⟨hsized.length, hsized.le⟩, hiff⟩
  refine Trace.forall_iff (J := fun k => Sized k.editor ∧ k.editor.Cursor)
    (Q := fun k p => ∀ k', handleKey answer k p = some k' → k'.editor.Cursor)
    (A := fun k p => ¬ (k.effect p.1 p.2 = .erase ∧ k.editor.text.getLast? = some (chr '\n')))
    ⟨hs, hc⟩ ?_ ?_
  · intro k p hJ
    refine ⟨fun hQ herase => ?_, fun hA k' h => (hkey k k' p hJ h).2.mpr hA⟩
    obtain ⟨k', hback⟩ := handle_of_effect answer (by rw [herase.1]; decide)
      (by rw [herase.1]; rfl)
    exact (hkey k k' p hJ hback).2.mp (hQ k' hback) herase
  · intro k p k' hJ hQ h
    exact ⟨(hkey k k' p hJ h).1, hQ k' h⟩

/-- **The cursor is right after every key exactly if none of them erases a newline.** -/
theorem cursor_iff (answer : Calls → List Byte → Bool) (k : Kernel) (keys : List (Byte × Byte)) :
    (∀ c ∈ trace (handleKey answer) { k with editor := editorInit } keys,
        ∀ k', handleKey answer c.1 c.2 = some k' → k'.editor.Cursor) ↔
      ∀ c ∈ trace (handleKey answer) { k with editor := editorInit } keys,
        ¬ (c.1.effect c.2.1 c.2.2 = .erase ∧ c.1.editor.text.getLast? = some (chr '\n')) :=
  cursor_iff_of_sized sized_editorInit ⟨rfl, rfl⟩ keys

/-- Enter, then Backspace: `cursor_y` stays 1, `cursor_x` becomes the largest word. -/
theorem not_cursor_enter_backspace :
    ¬ ∀ c ∈ trace (handleKey fun _ _ => true) boot [(4, 0), (2, 0)],
      ∀ k', handleKey (fun _ _ => true) c.1 c.2 = some k' → k'.editor.Cursor := by
  intro h
  have hkept := (cursor_iff_of_sized sized_editorInit ⟨rfl, rfl⟩ [(4, 0), (2, 0)]).mp h
  have hafter : (handleKey (fun _ _ => true) boot (4, 0)).map
      (fun k => (k.effect 2 0, k.editor.text.getLast?)) = some (.erase, some (chr '\n')) := by
    decide +kernel
  obtain ⟨k, hk, herase⟩ := Option.map_eq_some_iff.mp hafter
  refine hkept (k, (2, 0)) ?_ (Prod.ext_iff.mp herase)
  exact Trace.mem_of_run (l := [(4, 0)]) (Trace.run_cons hk)

end Kernel

end HuskyKernel
