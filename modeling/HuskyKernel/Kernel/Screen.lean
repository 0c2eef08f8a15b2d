import HuskyKernel.Kernel.Sessions

/-!
# Kernel/Screen — the terminal, and how the editor moves on it

`terminal_putchar` stays on the screen wherever it starts on it, and the functions that draw go
through it.  The editor's redraw does not: it assigns the row and the column its cursor is counted
on to.  So the terminal stays on the screen exactly as long as every redraw finds its cursor there
(`onScreen_iff`).
-/

namespace HuskyKernel

/-- `terminal_row`, `terminal_column`, `terminal_color` and the memory from `terminal_buffer` on, by
the index of a cell. -/
structure Screen where
  row : Word
  column : Word
  color : Byte
  cells : Word → UInt16

namespace Screen

/-- `VGA_WIDTH`. -/
def width : Word := 80

/-- `VGA_HEIGHT`. -/
def height : Word := 25

/-- `vga_entry`. -/
def vgaEntry (uc color : Byte) : UInt16 := uc.toUInt16 ||| color.toUInt16 <<< 8

/-- `vga_entry_color(VGA_COLOR_LIGHT_GREY, VGA_COLOR_BLACK)`. -/
def lightGrey : Byte := 7

/-- `terminal_initialize`: the two loops go through the cells of the screen. -/
def terminalInitialize (s : Screen) : Screen where
  row := 0
  column := 0
  color := lightGrey
  cells i := if i.toNat < 2000 then vgaEntry (chr ' ') lightGrey else s.cells i

/-- `terminal_putentryat`. -/
def putentryat (c color : Byte) (x y : Word) (s : Screen) : Screen :=
  { s with cells := Function.update s.cells (y * width + x) (vgaEntry c color) }

/-- The next line, with the screen as a ring. -/
def newline (s : Screen) : Screen :=
  let s := { s with column := 0, row := s.row + 1 }
  if s.row = height then { s with row := 0 } else s

/-- One cell back, to the end of the previous row if need be. -/
def back (s : Screen) : Screen :=
  if s.column > 0 then { s with column := s.column - 1 }
  else if s.row > 0 then { s with row := s.row - 1, column := width - 1 }
  else s

/-- `terminal_putchar`. -/
def putchar (c : Byte) (s : Screen) : Screen :=
  if c = chr '\n' then s.newline
  else if c = 0x08 then
    let s := s.back
    s.putentryat (chr ' ') s.color s.column s.row
  else
    let s := s.putentryat c s.color s.column s.row
    let s := { s with column := s.column + 1 }
    if s.column = width then s.newline else s

/-- What the kernel does to its terminal. -/
def apply (s : Screen) : TerminalOp → Screen
  | .terminalInitialize => s.terminalInitialize
  | .putchar c => s.putchar c
  | .moveTo row column => { s with row := row, column := column }

/-- One operation after another. -/
def draw (ops : List TerminalOp) (s : Screen) : Screen := ops.foldl apply s

/-- The next character goes to a cell of the screen. -/
structure OnScreen (s : Screen) : Prop where
  row : s.row < height
  column : s.column < width

variable {s : Screen} {c : Byte} {ops : List TerminalOp}

/-! ## Drawing stays on the screen -/

theorem onScreen_newline (h : s.row < height) : OnScreen s.newline := by
  simp only [newline]
  split_ifs with hbottom
  · exact ⟨show (0 : Word) < 25 by decide, show (0 : Word) < 80 by decide⟩
  · refine ⟨show s.row + 1 < 25 from ?_, show (0 : Word) < 80 by decide⟩
    simp only [height] at h hbottom
    bv_omega

theorem onScreen_back (h : OnScreen s) : OnScreen s.back := by
  obtain ⟨hrow, hcolumn⟩ := h
  rw [back]
  split_ifs with hcol hr
  · refine ⟨hrow, show s.column - 1 < 80 from ?_⟩
    simp only [width] at hcolumn
    bv_omega
  · refine ⟨show s.row - 1 < 25 from ?_, show (80 : Word) - 1 < 80 by decide⟩
    simp only [height] at hrow
    bv_omega
  · exact ⟨hrow, hcolumn⟩

/-- **A character drawn on the screen leaves the terminal there.** -/
theorem onScreen_putchar (h : OnScreen s) (c : Byte) : OnScreen (s.putchar c) := by
  simp only [putchar]
  split_ifs with hnl hbs hend
  · exact onScreen_newline h.row
  · have hback := onScreen_back h
    exact ⟨hback.row, hback.column⟩
  · exact onScreen_newline h.row
  · refine ⟨h.row, show s.column + 1 < 80 from ?_⟩
    have hcolumn := h.column
    simp only [putentryat, width] at hcolumn hend
    bv_omega

/-- The number of the cell the next character goes to, row by row. -/
def position (s : Screen) : ℕ := s.row.toNat * 80 + s.column.toNat

theorem position_lt (h : OnScreen s) : s.position < 2000 := by
  have hrow : s.row.toNat < 25 := h.row
  have hcolumn : s.column.toNat < 80 := h.column
  rw [position]
  omega

/-- The index it is stored at. -/
theorem index_eq (h : OnScreen s) : s.row * width + s.column = BitVec.ofNat 32 s.position := by
  have hlt := position_lt h
  refine BitVec.eq_of_toNat_eq ?_
  rw [BitVec.toNat_ofNat, BitVec.toNat_add, BitVec.toNat_mul, show width.toNat = 80 from rfl,
    Nat.mod_add_mod]
  rfl

/-- The cell of a position on the screen. -/
theorem index_lt (h : OnScreen s) : (s.row * width + s.column).toNat < 2000 := by
  have hlt := position_lt h
  rw [index_eq h, BitVec.toNat_ofNat, Nat.mod_eq_of_lt (by omega)]
  exact hlt

theorem cells_putentryat {color : Byte} {x y i : Word} (h : (y * width + x).toNat < 2000)
    (hi : 2000 ≤ i.toNat) : (s.putentryat c color x y).cells i = s.cells i := by
  refine Function.update_of_ne ?_ _ _
  rintro rfl
  omega

theorem cells_newline {i : Word} : s.newline.cells i = s.cells i := by
  simp only [newline]
  split_ifs <;> rfl

theorem cells_back {i : Word} : s.back.cells i = s.cells i := by
  rw [back]
  split_ifs <;> rfl

/-- **A character drawn on the screen is drawn inside it.** -/
theorem cells_putchar (h : OnScreen s) (c : Byte) {i : Word} (hi : 2000 ≤ i.toNat) :
    (s.putchar c).cells i = s.cells i := by
  simp only [putchar]
  split_ifs
  · exact cells_newline
  · exact (cells_putentryat (index_lt (onScreen_back h)) hi).trans cells_back
  · exact cells_newline.trans (cells_putentryat (index_lt h) hi)
  · exact cells_putentryat (index_lt h) hi

end Screen

/-- The row and the column are not assigned. -/
def TerminalOp.Plain : TerminalOp → Prop
  | .moveTo _ _ => False
  | _ => True

namespace Screen

variable {s : Screen} {ops : List TerminalOp}

theorem onScreen_terminalInitialize : OnScreen s.terminalInitialize :=
  ⟨show (0 : Word) < 25 by decide, show (0 : Word) < 80 by decide⟩

theorem draw_append (ops ops' : List TerminalOp) : s.draw (ops ++ ops') = (s.draw ops).draw ops' :=
  List.foldl_append

/-- **Nothing but the editor takes the terminal off the screen.** -/
theorem onScreen_draw (h : OnScreen s) (hops : ∀ op ∈ ops, op.Plain) : OnScreen (s.draw ops) := by
  induction ops generalizing s with
  | nil => exact h
  | cons op ops ih =>
    refine ih (s := s.apply op) ?_ fun op hop => hops op (List.mem_cons_of_mem _ hop)
    cases op with
    | terminalInitialize => exact onScreen_terminalInitialize
    | putchar c => exact onScreen_putchar h c
    | moveTo row column => exact (hops _ List.mem_cons_self).elim

end Screen

/-! ## What a key draws -/

theorem plain_writestring (s : List Byte) : ∀ op ∈ terminalWritestring s, op.Plain := by
  intro op hop
  obtain ⟨c, _, rfl⟩ := List.mem_map.mp hop
  trivial

namespace Kernel

variable {answer : Calls → List Byte → Bool} {k k' : Kernel} {key beyond : Byte}

/-- The next call of `editor_handle_input` ends in the redraw. -/
def Redraws (key beyond : Byte) (k : Kernel) : Prop :=
  key ≠ 0 ∧ key ≠ 5 ∧ (key = 6 ∨ key = 7 ∨
    if k.ctrl then
      k.character key beyond ≠ chr 'q' ∧ k.character key beyond ≠ chr 'r' ∧
        k.character key beyond ≠ 2
    else key ≠ 2)

/-- `k'` has drawn on from `k`, without assigning the row and the column. -/
def Draws (k k' : Kernel) : Prop := ∃ ops, (∀ op ∈ ops, op.Plain) ∧ k'.screen = k.screen ++ ops

theorem Draws.refl (h : k'.screen = k.screen) : Draws k k' :=
  ⟨[], fun _ h => absurd h List.not_mem_nil, by rw [h, List.append_nil]⟩

theorem draws_write (s : List Byte) : Draws k (k.write s) := ⟨_, plain_writestring s, rfl⟩

theorem Draws.trans {k'' : Kernel} (h : Draws k k') (h' : Draws k' k'') : Draws k k'' := by
  obtain ⟨ops, hops, hk'⟩ := h
  obtain ⟨ops', hops', hk''⟩ := h'
  refine ⟨ops ++ ops', fun op hop => ?_, by rw [hk'', hk', List.append_assoc]⟩
  exact (List.mem_append.mp hop).elim (hops op) (hops' op)

theorem draws_execute (h : k.execute answer = some k') : Draws k k' := by
  obtain ⟨st, _, rfl⟩ := Option.map_eq_some_iff.mp h
  exact ⟨_, plain_writestring st.screen, rfl⟩

theorem draws_backspaceKey : Draws k k.backspaceKey := by
  rw [backspaceKey]
  split_ifs
  · exact ⟨_, plain_writestring _, rfl⟩
  · exact .refl rfl

/-- **A key that does not redraw only draws on.** -/
theorem draws_of_handle (hr : ¬ k.Redraws key beyond)
    (h : k.editorHandleInput answer key beyond = some k') : Draws k k' := by
  have hcase := handles answer key beyond k
  rw [h] at hcase
  rw [Redraws] at hr
  generalize k.effect key beyond = eff at hcase
  generalize hk : some k' = r at hcase
  cases hcase with
  | none | ctrl => exact .refl (by rw [Option.some.inj hk])
  | shift h67 =>
    refine absurd ⟨?_, ?_, by tauto⟩ hr
    all_goals rcases h67 with rfl | rfl <;> decide
  | command h05 h67 hctrl =>
    rw [if_pos hctrl] at hr
    rw [ctrlKey] at hk
    split_ifs at hk with hq hrun
    · rw [Option.some.inj hk]
      exact ⟨_, plain_writestring _, rfl⟩
    · exact Draws.trans ⟨_, plain_writestring _, rfl⟩ (draws_execute hk.symm)
    · have htwo : k.character key beyond = 2 := by tauto
      rw [Option.some.inj hk, finish, if_neg (not_not.mpr htwo)]
      exact .refl rfl
  | erase =>
    rw [Option.some.inj hk]
    exact draws_backspaceKey
  | enter hctrl h4 =>
    rw [if_neg hctrl] at hr
    subst h4
    exact absurd (by decide) hr
  | type h05 hctrl h2 | other h05 hctrl h2 =>
    rw [if_neg hctrl] at hr
    exact absurd ⟨h05.1, h05.2, .inr (.inr h2)⟩ hr

/-- The last thing drawn assigns the row and the column of the cursor of `e`. -/
def EndsAt (e : EditorState) (k : Kernel) : Prop :=
  ∃ ops, k.screen = ops ++ [.moveTo e.cursorY e.cursorX]

theorem endsAt_finish (h : key ≠ 2) : (k.finish key).EndsAt k.editor := by
  rw [finish, if_pos h]
  exact ⟨_, rfl⟩

theorem character_ne_two (h : key < 128) : k.character key beyond ≠ 2 := by
  rw [character, if_pos h]
  intro htwo
  rcases layoutEntry_cases k.shifted k.currentLayout key with hzero | hspace
  · rw [hzero] at htwo
    exact absurd htwo (by decide)
  · rw [htwo] at hspace
    exact absurd hspace (by decide)

/-- **A key that redraws leaves the terminal where its cursor is.** -/
theorem endsAt_of_redraws (answer : Calls → List Byte → Bool) (hr : k.Redraws key beyond)
    (hroom : k.effect key beyond ≠ .still → k.editor.position < editorBufferSize) :
    ∃ k' e, k.editorHandleInput answer key beyond = some k' ∧
      (k.effect key beyond).apply k.editor = some e ∧ k'.EndsAt e := by
  obtain ⟨h0, h5, hr⟩ := hr
  have hcase := handles answer key beyond k
  generalize k.effect key beyond = eff at hcase hroom ⊢
  generalize k.editorHandleInput answer key beyond = r at hcase ⊢
  cases hcase with
  | none h => exact absurd h h0
  | ctrl h => exact absurd h h5
  | shift h =>
    refine ⟨_, _, rfl, rfl, endsAt_finish ?_⟩
    rcases h with rfl | rfl <;> decide
  | command _ h67 hctrl =>
    rw [if_pos hctrl] at hr
    replace hr := hr.resolve_left fun h => h67 (.inl h)
    obtain ⟨hq, hrun, h2⟩ := hr.resolve_left fun h => h67 (.inr h)
    rw [ctrlKey, if_neg hq, if_neg hrun]
    exact ⟨_, _, rfl, rfl, endsAt_finish h2⟩
  | enter _ h =>
    have hlt := hroom fun h => by cases h
    rw [enterKey, Effect.apply, EditorState.push, if_pos hlt]
    refine ⟨_, _, rfl, rfl, endsAt_finish ?_⟩
    rw [h]
    decide
  | erase hctrl h =>
    subst h
    rw [if_neg hctrl] at hr
    exact absurd hr (by decide)
  | type _ _ _ h =>
    have hlt := hroom fun h => by cases h
    rw [characterKey, Effect.apply, EditorState.push, if_pos hlt]
    exact ⟨_, _, rfl, rfl, endsAt_finish (character_ne_two h)⟩
  | other _ _ h2 => exact ⟨_, _, rfl, rfl, endsAt_finish h2⟩

end Kernel

/-! ## The terminal, event by event -/

namespace Effect

open Screen

/-- The cursor will be on the screen, if there is room in the buffer for what is typed. -/
def Room : Effect → EditorState → Prop
  | still, e => e.cursorY < height ∧ e.cursorX < width
  | enter, e => e.position < editorBufferSize → e.cursorY + 1 < height
  | erase, e => e.cursorY < height ∧ e.cursorX < width
  | type _, e => e.position < editorBufferSize → e.cursorY < height ∧ e.cursorX + 1 < width

end Effect

/-- An event, where the prompt and its commands draw without assigning the row and the column. -/
structure PlainEvent where
  event : KernelEvent
  plain : ∀ r, event = .round r → ∀ op ∈ r.echo ++ r.output, op.Plain

namespace PlainEvent

/-- A key, as an event that draws through the terminal only. -/
def key (p : KeyPress) : PlainEvent := ⟨.key p, fun r h => by cases h⟩

/-- `edit`. -/
def edit : PlainEvent := ⟨Kernel.editRound, fun r h op hop => by
  cases h
  exact absurd hop List.not_mem_nil⟩

/-- Enter. -/
def enter : PlainEvent := .key ⟨4, false, 0⟩

end PlainEvent

/-- The terminal is on the screen, so that whatever is written next is written inside it. -/
structure Screen.Safe (s : Screen) : Prop extends OnScreen s where
  inside : ∀ (text : List Byte) (i : Word), 2000 ≤ i.toNat →
    (s.draw (terminalWritestring text)).cells i = s.cells i

namespace Kernel

open Screen

variable {answer : Calls → List Byte → Bool} {k k' : Kernel}

/-- The event ends in the redraw. -/
def RedrawsOn (k : Kernel) : KernelEvent → Prop
  | .round _ => False
  | .key p => k.editor.isActive = true ∧ (p.point k).Redraws p.key p.beyond

/-- One event. -/
def plainStep (answer : Calls → List Byte → Bool) (k : Kernel) (e : PlainEvent) : Option Kernel :=
  k.step answer e.event

/-- The terminal; `s` is what it was before the kernel started. -/
def terminal (s : Screen) (k : Kernel) : Screen := s.draw k.screen

theorem safe_of_onScreen {s : Screen} (h : OnScreen s) : Safe s := by
  refine ⟨h, fun text i hi => ?_⟩
  induction text generalizing s with
  | nil => rfl
  | cons c text ih => exact (ih (onScreen_putchar h c)).trans (cells_putchar h c hi)

theorem draw_cons (op : TerminalOp) (ops : List TerminalOp) (s : Screen) :
    s.draw (op :: ops) = (s.apply op).draw ops := rfl

theorem safe_boot (s : Screen) : Safe (terminal s boot) := by
  rw [terminal, boot, draw_cons]
  exact safe_of_onScreen (onScreen_draw onScreen_terminalInitialize (plain_writestring _))

theorem Draws.safe {s : Screen} (h : Draws k k') (hk : Safe (terminal s k)) :
    Safe (terminal s k') := by
  obtain ⟨ops, hops, hk'⟩ := h
  rw [terminal, hk', draw_append]
  exact safe_of_onScreen (onScreen_draw hk.toOnScreen hops)

theorem draws_cl (args : List (List Byte)) : Draws k (k.cl args) := by
  cases args with
  | nil => exact draws_write _
  | cons name args =>
    rw [cl]
    split
    · exact ⟨_, plain_writestring _, rfl⟩
    · exact draws_write _

theorem draws_run (h : k.run answer = some k') : Draws k k' := by
  rw [run] at h
  split_ifs at h
  · exact draws_execute h
  · rw [← Option.some.inj h]
    exact draws_write _

theorem draws_command {r : Round} (hr : ∀ op ∈ r.echo ++ r.output, op.Plain)
    (h : k.command answer r = some k') : Draws k k' := by
  have hecho : Draws k { k with screen := k.screen ++ r.echo } :=
    ⟨r.echo, fun op hop => hr op (List.mem_append_left _ hop), rfl⟩
  refine hecho.trans ?_
  rw [command] at h
  cases hargs : r.args with
  | nil =>
    rw [hargs] at h
    exact .refl (by rw [← Option.some.inj h])
  | cons name args =>
    simp only [hargs] at h
    split_ifs at h
    · rw [← Option.some.inj h]
      exact draws_cl args
    · rw [← Option.some.inj h]
      exact ⟨_, plain_writestring _, rfl⟩
    · exact draws_run h
    · rw [← Option.some.inj h]
      exact ⟨r.output, fun op hop => hr op (List.mem_append_right _ hop), rfl⟩

theorem effect_ne_erase {key beyond : Byte} (h : k.Redraws key beyond) :
    k.effect key beyond ≠ .erase := by
  intro herase
  rw [effect] at herase
  split_ifs at herase with hstill h4 h2
  obtain ⟨h0, h5, hr⟩ := h
  have hctrl : ¬ k.ctrl = true := by tauto
  rw [if_neg hctrl] at hr
  tauto

theorem lt_of_apply {eff : Effect} {e e' : EditorState} (hne : eff ≠ .erase) (hstill : eff ≠ .still)
    (h : eff.apply e = some e') : e.position < editorBufferSize := by
  cases eff with
  | still => exact absurd rfl hstill
  | enter =>
    obtain ⟨e₁, he₁, _⟩ := Option.map_eq_some_iff.mp h
    exact (EditorState.push_eq_some he₁).1
  | erase => exact absurd rfl hne
  | type c =>
    obtain ⟨e₁, he₁, _⟩ := Option.map_eq_some_iff.mp h
    exact (EditorState.push_eq_some he₁).1

/-- Where the cursor is after a key. -/
theorem room_iff {eff : Effect} {e e' : EditorState} (hne : eff ≠ .erase)
    (h : eff.apply e = some e') : e'.cursorY < height ∧ e'.cursorX < width ↔ eff.Room e := by
  have hmove := Prod.ext_iff.mp (Effect.cursor_apply h)
  have hy : e'.cursorY = (eff.move e).1 := hmove.1
  have hx : e'.cursorX = (eff.move e).2 := hmove.2
  rw [hy, hx]
  cases eff with
  | still => exact Iff.rfl
  | enter =>
    have hlt := lt_of_apply hne (fun h => by cases h) h
    exact ⟨fun h _ => h.1, fun h => ⟨h hlt, show (0 : Word) < 80 by decide⟩⟩
  | erase => exact absurd rfl hne
  | type c =>
    have hlt := lt_of_apply hne (fun h => by cases h) h
    exact ⟨fun h _ => h, fun h => h hlt⟩

/-- Beyond the buffer there is nothing to keep. -/
theorem room_of_full {eff : Effect} {e : EditorState} (hne : eff ≠ .erase) (hstill : eff ≠ .still)
    (h : ¬ e.position < editorBufferSize) : eff.Room e := by
  cases eff with
  | still => exact absurd rfl hstill
  | enter => exact fun hlt => absurd hlt h
  | erase => exact absurd rfl hne
  | type c => exact fun hlt => absurd hlt h

theorem safe_of_endsAt {s : Screen} {e : EditorState} (h : k.EndsAt e) :
    Safe (terminal s k) ↔ e.cursorY < height ∧ e.cursorX < width := by
  obtain ⟨ops, hops⟩ := h
  rw [terminal, hops, draw_append]
  exact ⟨fun h => ⟨h.row, h.column⟩, fun h => safe_of_onScreen ⟨h.1, h.2⟩⟩

/-- **One event**: the terminal stays safe exactly if the redraw, if there is one, finds the cursor
on the screen. -/
theorem safe_step_iff {s : Screen} (hk : Safe (terminal s k)) (e : PlainEvent) :
    (∀ k', plainStep answer k e = some k' → Safe (terminal s k')) ↔
      (k.RedrawsOn e.event → (k.effectOf e.event).Room k.editor) := by
  obtain ⟨event, plain⟩ := e
  cases event with
  | round r =>
    refine iff_of_true (fun k' hk' => ?_) (fun h => h.elim)
    rw [plainStep, step] at hk'
    split_ifs at hk'
    exact (draws_command (plain r rfl) hk').safe hk
  | key p =>
    rw [plainStep, step, RedrawsOn, effectOf]
    by_cases hactive : k.editor.isActive = true
    case neg =>
      rw [if_neg hactive]
      exact iff_of_true (fun k' hk' => absurd hk'.symm (Option.some_ne_none k'))
        fun h => absurd h.1 hactive
    rw [if_pos hactive, if_pos hactive]
    have hpoint : Safe (terminal s (p.point k)) := hk
    by_cases hr : (p.point k).Redraws p.key p.beyond
    case neg =>
      exact iff_of_true (fun k' hk' => (draws_of_handle hr hk').safe hpoint) fun h => absurd h.2 hr
    have hne := effect_ne_erase hr
    rw [forall_prop_of_true ⟨hactive, hr⟩]
    by_cases hroom : (p.point k).effect p.key p.beyond ≠ .still →
        k.editor.position < editorBufferSize
    · obtain ⟨k', e, hk', he, hends⟩ := endsAt_of_redraws answer hr hroom
      have hiff := (safe_of_endsAt (s := s) hends).trans (room_iff hne he)
      rw [KeyPress.handle, hk']
      exact ⟨fun h => hiff.mp (h k' rfl), fun h k₁ hk₁ => Option.some.inj hk₁ ▸ hiff.mpr h⟩
    · obtain ⟨hstill, hfull⟩ := Classical.not_imp.mp hroom
      refine iff_of_true (fun k' hk' => ?_) (room_of_full hne hstill hfull)
      obtain ⟨e, he, -⟩ := editor_of_handle hk'
      exact absurd (lt_of_apply hne hstill he) hfull

/-- From any kernel whose terminal is on the screen. -/
theorem onScreen_iff_of_safe {s : Screen} (hk : Safe (terminal s k)) (es : List PlainEvent) :
    (∀ c ∈ trace (plainStep answer) k es,
        ∀ k', plainStep answer c.1 c.2 = some k' → Safe (terminal s k')) ↔
      ∀ c ∈ trace (plainStep answer) k es,
        c.1.RedrawsOn c.2.event → (c.1.effectOf c.2.event).Room c.1.editor :=
  Trace.forall_iff (J := fun k => Safe (terminal s k))
    (Q := fun k e => ∀ k', plainStep answer k e = some k' → Safe (terminal s k'))
    (A := fun k e => k.RedrawsOn e.event → (k.effectOf e.event).Room k.editor)
    hk (fun _ e hk => safe_step_iff hk e) fun _ _ k' _ hQ h => hQ k' h

/-- **The terminal stays on the screen exactly if every redraw finds the cursor there.** -/
theorem onScreen_iff (answer : Calls → List Byte → Bool) (s : Screen) (es : List PlainEvent) :
    (∀ c ∈ trace (plainStep answer) boot es,
        ∀ k', plainStep answer c.1 c.2 = some k' → Safe (terminal s k')) ↔
      ∀ c ∈ trace (plainStep answer) boot es,
        c.1.RedrawsOn c.2.event → (c.1.effectOf c.2.event).Room c.1.editor :=
  onScreen_iff_of_safe (safe_boot s) es

/-- Enter, 25 times: row 25. -/
theorem not_onScreen_enter : ¬ ∀ c ∈ trace (plainStep fun _ _ => true) boot
      (.edit :: List.replicate 24 .enter ++ [.enter]),
    ∀ k', plainStep (fun _ _ => true) c.1 c.2 = some k' →
      Safe (terminal ⟨0, 0, 0, fun _ => 0⟩ k') := by
  intro h
  have hroom := (onScreen_iff_of_safe (safe_boot _) _).mp h
  have hrun : (Trace.run (plainStep fun _ _ => true) boot (.edit :: List.replicate 24 .enter)).map
      (fun k => (k.editor.isActive, k.ctrl, k.editor.position, k.editor.cursorY)) =
        some (true, false, 24, 24) := by
    decide +kernel
  obtain ⟨k, hk, hstate⟩ := Option.map_eq_some_iff.mp hrun
  simp only [Prod.mk.injEq] at hstate
  obtain ⟨hactive, hctrl, hposition, hrow⟩ := hstate
  have hredraws : k.RedrawsOn PlainEvent.enter.event :=
    ⟨hactive, by decide, by decide, Or.inr (Or.inr (by simp [KeyPress.point, hctrl]))⟩
  have heffect : k.effectOf PlainEvent.enter.event = .enter := by
    simp [PlainEvent.enter, PlainEvent.key, effectOf, hactive, effect, KeyPress.point, hctrl]
  have hlast := hroom (k, .enter) (Trace.mem_of_run hk) hredraws
  rw [heffect, Effect.Room, hposition, hrow] at hlast
  exact absurd (hlast (by decide)) (by decide)

end Kernel

end HuskyKernel
