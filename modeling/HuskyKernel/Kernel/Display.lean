import HuskyKernel.Kernel.Ring
import HuskyKernel.Logic.Page

/-!
# Kernel/Display — what the editor shows is what has been edited

A redraw clears the screen, writes the text and puts the terminal's cursor behind it: as long as the
text fits, the screen is the page of it (`displays_write`).  Backspace leaves the redraw out and
takes the last character back on the screen, which keeps the page unless that was a newline
(`Displays.erase`).
-/

namespace HuskyKernel

open Lines

/-! ## The page of a text -/

/-- The characters of the text, in their lines and columns. -/
def pageOf (text : List Byte) (row col : ℕ) : Byte := page (chr '\n') (chr ' ') text row col

/-- The text has at most 25 lines of at most 79 characters. -/
def OnePage (text : List Byte) : Prop := Fits (chr '\n') 25 80 text

instance {text : List Byte} : Decidable (OnePage text) :=
  inferInstanceAs (Decidable (Fits (chr '\n') 25 80 text))

/-- The line the text ends in. -/
def endRow (text : List Byte) : ℕ := text.count (chr '\n')

/-- The column it ends in front of. -/
def endColumn (text : List Byte) : ℕ := column text

namespace Screen

/-- The screen is the page of the text, and the next character goes right behind it. -/
structure Displays (text : List Byte) (s : Screen) : Prop where
  fits : OnePage text
  atRow : s.row = BitVec.ofNat 32 (endRow text)
  atColumn : s.column = BitVec.ofNat 32 (endColumn text)
  color : s.color = lightGrey
  cells : ∀ r < 25, ∀ c < 80,
    s.cells (BitVec.ofNat 32 (r * 80 + c)) = vgaEntry (pageOf text r c) lightGrey

end Screen

variable {s t : Screen} {text : List Byte} {c : Byte} {r m n : ℕ}

theorem endRow_newline (text : List Byte) : endRow (text ++ [chr '\n']) = endRow text + 1 := by
  rw [endRow, List.count_append, List.count_singleton_self, endRow]

theorem endColumn_newline (text : List Byte) : endColumn (text ++ [chr '\n']) = 0 :=
  column_newline text

theorem endRow_concat (hc : c ≠ chr '\n') (text : List Byte) :
    endRow (text ++ [c]) = endRow text := by
  rw [endRow, List.count_append, List.count_singleton, if_neg (by simpa using hc), Nat.add_zero,
    endRow]

theorem endColumn_concat (hc : c ≠ chr '\n') (text : List Byte) :
    endColumn (text ++ [c]) = endColumn text + 1 := column_concat text hc

/-- The column is the length of the last line — induction on the text, from its end. -/
theorem length_unfinished (text : List Byte) :
    (unfinished (chr '\n') text).length = endColumn text := by
  induction text using List.reverseRecOn with
  | nil => rfl
  | append_singleton text c ih =>
    by_cases hc : c = chr '\n'
    · rw [hc, unfinished_concat_sep, endColumn_newline, List.length_nil]
    · rw [unfinished_concat hc, endColumn_concat hc, List.length_append, ih, List.length_singleton]

theorem OnePage.place (h : OnePage text) : endRow text < 25 ∧ endColumn text < 80 := by
  rw [← length_unfinished]
  exact Fits.place h

theorem pageOf_concat (hc : c ≠ chr '\n') (text : List Byte) (r n : ℕ) :
    pageOf (text ++ [c]) r n =
      if r = endRow text ∧ n = endColumn text then c else pageOf text r n := by
  rw [← length_unfinished]
  exact page_concat hc _ _ _ _

theorem pageOf_end (text : List Byte) : pageOf text (endRow text) (endColumn text) = chr ' ' := by
  rw [← length_unfinished]
  exact page_end _ _ _

namespace Screen

/-! ## Cells and places -/

/-- Different places of the page are different cells. -/
theorem place_inj {r' n' : ℕ} (hr : r < 25) (hn : n < 80) (hr' : r' < 25) (hn' : n' < 80) :
    BitVec.ofNat 32 (r * 80 + n) = BitVec.ofNat 32 (r' * 80 + n') ↔ r = r' ∧ n = n' := by
  refine ⟨fun h => ?_, fun h => by rw [h.1, h.2]⟩
  by_contra hne
  exact ofNat_ne (by omega) (by omega) (by omega) h

/-- The cursor is at the cell it is at. -/
theorem cursor_of_position (h : OnScreen s) (hn : n < 80) (hp : s.position = r * 80 + n) :
    s.row = BitVec.ofNat 32 r ∧ s.column = BitVec.ofNat 32 n := by
  have hcolumn : s.column.toNat < 80 := h.column
  have hrow : s.row.toNat < 25 := h.row
  rw [position] at hp
  have hr : r = s.row.toNat := by omega
  have hn : n = s.column.toNat := by omega
  rw [hr, hn, BitVec.ofNat_toNat, BitVec.ofNat_toNat, BitVec.setWidth_eq, BitVec.setWidth_eq]
  exact ⟨rfl, rfl⟩

namespace Displays

theorem toNat_row (h : Displays text s) : s.row.toNat = endRow text := by
  have hlt := h.fits.place.1
  rw [h.atRow, BitVec.toNat_ofNat, Nat.mod_eq_of_lt (by omega)]

theorem toNat_column (h : Displays text s) : s.column.toNat = endColumn text := by
  have hlt := h.fits.place.2
  rw [h.atColumn, BitVec.toNat_ofNat, Nat.mod_eq_of_lt (by omega)]

theorem onScreen (h : Displays text s) : OnScreen s := by
  refine ⟨BitVec.lt_def.mpr ?_, BitVec.lt_def.mpr ?_⟩
  · rw [h.toNat_row]
    exact h.fits.place.1
  · rw [h.toNat_column]
    exact h.fits.place.2

theorem position (h : Displays text s) :
    s.position = endRow text * 80 + endColumn text := by
  rw [Screen.position, h.toNat_row, h.toNat_column]

/-! ## Writing -/

/-- **A newline starts the next line of the page.** -/
theorem newline (h : Displays text s) (hfits : OnePage (text ++ [chr '\n'])) :
    Displays (text ++ [chr '\n']) (s.putchar (chr '\n')) := by
  have hrow : s.row.toNat = endRow text := h.toNat_row
  have hplace := hfits.place
  rw [endRow_newline, endColumn_newline] at hplace
  have hput : s.putchar (chr '\n') = s.newline := if_pos rfl
  have hposition : s.newline.position = (endRow text + 1) * 80 + 0 := by
    rw [position_newline h.onScreen.row, hrow, Nat.mod_eq_of_lt (by omega)]
    omega
  obtain ⟨hrow', hcolumn'⟩ := cursor_of_position (onScreen_newline h.onScreen.row) (by omega)
    hposition
  rw [hput]
  refine ⟨hfits, ?_, ?_, color_newline.trans h.color, fun r hr n hn => ?_⟩
  · rw [hrow', endRow_newline]
  · rw [hcolumn', endColumn_newline]
  · rw [cells_newline, h.cells r hr n hn, pageOf, pageOf, page_concat_sep]

/-- **A character goes to its place.** -/
theorem char (h : Displays text s) (hc : Advances c) (hfits : OnePage (text ++ [c])) :
    Displays (text ++ [c]) (s.putchar c) := by
  have hplace := hfits.place
  rw [endRow_concat hc.1, endColumn_concat hc.1] at hplace
  obtain ⟨hposition, hcolor, hcells⟩ := typed_putchar h.onScreen hc
  have hnext : (s.putchar c).position = endRow text * 80 + (endColumn text + 1) := by
    rw [hposition, h.position, Nat.mod_eq_of_lt (by omega)]
    omega
  obtain ⟨hrow, hcolumn⟩ := cursor_of_position (onScreen_putchar h.onScreen c) hplace.2 hnext
  refine ⟨hfits, by rw [hrow, endRow_concat hc.1], by rw [hcolumn, endColumn_concat hc.1],
    hcolor.trans h.color, fun r hr n hn => ?_⟩
  rw [hcells, h.position, h.color, pageOf_concat hc.1]
  by_cases hat : r = endRow text ∧ n = endColumn text
  · rw [if_pos hat, hat.1, hat.2, Function.update_self]
  · rw [if_neg hat, Function.update_of_ne, h.cells r hr n hn]
    exact fun heq => hat ((place_inj hr hn hplace.1 (by omega)).mp heq)

theorem putchar (h : Displays text s) (hc : c ≠ 0x08) (hfits : OnePage (text ++ [c])) :
    Displays (text ++ [c]) (s.putchar c) := by
  by_cases hnl : c = chr '\n'
  · rw [hnl] at hfits ⊢
    exact h.newline hfits
  · exact h.char ⟨hnl, hc⟩ hfits

/-- **`"\b \b"` takes back a character** that was no newline. -/
theorem erase (h : Displays (text ++ [c]) s) (hc : c ≠ chr '\n') :
    Displays text (s.draw (terminalWritestring (str "\x08 \x08"))) := by
  have hfits : OnePage text := Fits.of_concat h.fits
  have hplace := hfits.place
  have hposition := h.position
  rw [endRow_concat hc, endColumn_concat hc] at hposition
  have hlast := position_lt h.onScreen
  have hdraw : s.draw (terminalWritestring (str "\x08 \x08")) =
      ((s.putchar 0x08).putchar (chr ' ')).putchar 0x08 := rfl
  have hback := erased_putchar h.onScreen
  have hblank := typed_putchar (onScreen_putchar h.onScreen 0x08)
    (c := chr ' ') ⟨by decide, by decide⟩
  have hon := onScreen_putchar (onScreen_putchar h.onScreen 0x08) (chr ' ')
  have hagain := erased_putchar hon
  have hsame : (s.position - 1 + 1) % 2000 - 1 = s.position - 1 := by
    rw [Nat.mod_eq_of_lt (by omega)]
    omega
  have hcell : s.position - 1 = endRow text * 80 + endColumn text := by omega
  rw [hdraw]
  have hcursor := cursor_of_position (onScreen_putchar hon 0x08) hplace.2
    (by rw [hagain.position, hblank.position, hback.position, hsame, hcell])
  refine ⟨hfits, hcursor.1, hcursor.2, ?_, fun r hr n hn => ?_⟩
  · rw [hagain.color, hblank.color, hback.color, h.color]
  rw [hagain.cells, hblank.cells, hback.cells, hblank.position, hblank.color, hback.position,
    hback.color, hsame, hcell, h.color, Function.update_idem, Function.update_idem]
  by_cases hat : r = endRow text ∧ n = endColumn text
  · rw [hat.1, hat.2, Function.update_self, pageOf_end]
  · rw [Function.update_of_ne, h.cells r hr n hn, pageOf_concat hc, if_neg hat]
    exact fun heq => hat ((place_inj hr hn hplace.1 hplace.2).mp heq)

end Displays

theorem displays_nil : Displays [] s.terminalInitialize := by
  refine ⟨⟨by decide, by decide⟩, rfl, rfl, rfl, fun r hr n hn => ?_⟩
  have hlt : (BitVec.ofNat 32 (r * 80 + n)).toNat < 2000 := by
    rw [BitVec.toNat_ofNat, Nat.mod_eq_of_lt (by omega)]
    omega
  rw [pageOf, page_nil]
  exact if_pos hlt

/-- **A cleared screen becomes the page of what is written** — induction on the text, from its
end. -/
theorem displays_write (hfits : OnePage text) (h8 : 0x08 ∉ text) :
    Displays text (s.terminalInitialize.draw (terminalWritestring text)) := by
  induction text using List.reverseRecOn with
  | nil => exact displays_nil
  | append_singleton text c ih =>
    have hrest := ih (Fits.of_concat hfits) fun hmem => h8 (List.mem_append_left _ hmem)
    have hc : c ≠ 0x08 := fun hc => h8 (List.mem_append_right _ (List.mem_singleton.mpr hc.symm))
    rw [terminalWritestring, List.map_append, draw_append]
    exact hrest.putchar hc hfits

end Screen

/-! ## The text in the editor -/

/-- The buffer has the text and no NUL in it, the cursor is behind it, and it can be shown. -/
structure EditorState.Tidy (e : EditorState) : Prop where
  sized : e.Sized
  clean : e.Clean
  cursor : e.Cursor
  noBackspace : 0x08 ∉ e.text
  onePage : OnePage e.text

/-- What keeps a text tidy: it types no NUL, joins no lines, and what comes of it fits. -/
structure Effect.Fair (eff : Effect) (e : EditorState) : Prop where
  noNul : eff ≠ .type 0
  noJoin : ¬ (eff = .erase ∧ e.text.getLast? = some (chr '\n'))
  onePage : OnePage (eff.edit e.text)

instance {eff : Effect} {e : EditorState} : Decidable (eff.Fair e) :=
  decidable_of_iff (eff ≠ .type 0 ∧ ¬ (eff = .erase ∧ e.text.getLast? = some (chr '\n')) ∧
    OnePage (eff.edit e.text)) ⟨fun h => ⟨h.1, h.2.1, h.2.2⟩, fun h => ⟨h.1, h.2, h.3⟩⟩

namespace EditorState

variable {e e' : EditorState} {eff : Effect}

theorem Tidy.still (h : e.Tidy) : Effect.still.Fair e :=
  ⟨nofun, fun h => absurd h.1 nofun, h.onePage⟩

/-- Whether the editor is open makes no difference. -/
theorem tidy_congr {b : Bool} : Tidy { e with isActive := b } ↔ Tidy e :=
  ⟨fun h => ⟨⟨h.sized.length, h.sized.le⟩, ⟨h.clean.noNul, h.clean.rest, h.clean.shown⟩, h.cursor,
      h.noBackspace, h.onePage⟩,
    fun h => ⟨⟨h.sized.length, h.sized.le⟩, ⟨h.clean.noNul, h.clean.rest, h.clean.shown⟩, h.cursor,
      h.noBackspace, h.onePage⟩⟩

/-- **A key keeps the text tidy exactly if what it does is fair.** -/
theorem tidy_apply_iff (h : e.Tidy) (he : eff.apply e = some e')
    (htype : ∀ c < chr ' ', c ≠ 0 → eff ≠ .type c) : e'.Tidy ↔ eff.Fair e := by
  have htext : e'.text = eff.edit e.text := Effect.text_apply h.sized he
  have hclean := Effect.clean_apply_iff h.sized h.clean he
  have hcursor := Effect.cursor_apply_iff h.sized h.cursor he
    (htype _ (by decide) (by decide))
  constructor
  · exact fun h' => ⟨hclean.mp h'.clean, hcursor.mp h'.cursor, htext ▸ h'.onePage⟩
  · rintro ⟨hnul, hjoin, hpage⟩
    refine ⟨Effect.sized_apply h.sized he, hclean.mpr hnul, hcursor.mpr hjoin, ?_, htext ▸ hpage⟩
    rw [htext]
    cases eff with
    | still => exact h.noBackspace
    | enter =>
      exact fun hmem => (List.mem_append.mp hmem).elim h.noBackspace (by decide)
    | erase => exact fun hmem => h.noBackspace (List.dropLast_subset _ hmem)
    | type c =>
      refine fun hmem => (List.mem_append.mp hmem).elim h.noBackspace fun hc => ?_
      exact htype 0x08 (by decide) (by decide) (List.mem_singleton.mp hc ▸ rfl)

end EditorState

/-! ## What a key draws -/

namespace Kernel

open Screen

variable {answer : Calls → List Byte → Bool} {k k' : Kernel} {key beyond : Byte} {s : Screen}

/-- The screen shows the text, all of it, and the cursor where the next character will go. -/
structure Faithful (s : Screen) (k : Kernel) : Prop where
  tidy : k.editor.Tidy
  displays : Displays k.editor.text (terminal s k)

/-- The last thing drawn is the text of `e`, from an empty screen on, and the cursor is put where
`e` has it. -/
def Redrawn (e : EditorState) (k : Kernel) : Prop :=
  ∃ ops, k.screen = ops ++ (.terminalInitialize :: terminalWritestring (cstr e.buffer) ++
    [.moveTo e.cursorY e.cursorX])

theorem redrawn_finish (h : key ≠ 2) : (k.finish key).Redrawn (k.finish key).editor := by
  rw [editor_finish, finish, if_pos h]
  exact ⟨k.screen, List.append_assoc _ _ _⟩

theorem redrawn_of_map {o : Option Kernel} (hkey : key ≠ 2)
    (h : o.map (finish key) = some k') : k'.Redrawn k'.editor := by
  obtain ⟨k₁, -, rfl⟩ := Option.map_eq_some_iff.mp h
  exact redrawn_finish hkey

/-- **A key that redraws draws the text it leaves.** -/
theorem redrawn_of_redraws (hr : k.Redraws key beyond)
    (h : k.editorHandleInput answer key beyond = some k') : k'.Redrawn k'.editor := by
  obtain ⟨h0, h5, hr⟩ := hr
  have hcase := handles answer key beyond k
  rw [h] at hcase
  generalize k.effect key beyond = eff at hcase
  generalize hk : some k' = r at hcase
  cases hcase with
  | none h => exact absurd h h0
  | ctrl h => exact absurd h h5
  | shift h =>
    rw [Option.some.inj hk]
    refine redrawn_finish ?_
    rcases h with rfl | rfl <;> decide
  | command _ h67 hctrl =>
    rw [if_pos hctrl] at hr
    replace hr := hr.resolve_left fun h => h67 (.inl h)
    obtain ⟨hq, hrun, h2⟩ := hr.resolve_left fun h => h67 (.inr h)
    rw [ctrlKey, if_neg hq, if_neg hrun] at hk
    rw [Option.some.inj hk]
    exact redrawn_finish h2
  | enter _ h =>
    refine redrawn_of_map ?_ hk.symm
    rw [h]
    decide
  | erase hctrl h =>
    subst h
    rw [if_neg hctrl] at hr
    exact absurd hr (by decide)
  | type _ _ _ h => exact redrawn_of_map (character_ne_two h) hk.symm
  | other _ _ h2 =>
    rw [Option.some.inj hk]
    exact redrawn_finish h2

/-- **A redraw shows the text**, whatever was on the screen before. -/
theorem Redrawn.faithful (h : k.Redrawn k.editor) (htidy : k.editor.Tidy) : Faithful s k := by
  obtain ⟨ops, hops⟩ := h
  have hdrawn : Displays k.editor.text
      ((s.draw ops).terminalInitialize.draw (terminalWritestring k.editor.text)) :=
    displays_write htidy.onePage htidy.noBackspace
  refine ⟨htidy, ?_⟩
  rw [terminal, hops, draw_append, List.cons_append, draw_cons, draw_append, htidy.clean.shown]
  exact ⟨hdrawn.fits, htidy.cursor.1, htidy.cursor.2, hdrawn.color, hdrawn.cells⟩

/-- Without a redraw nothing is drawn, but what Backspace draws, as long as the editor is open. -/
theorem screen_of_not_redraws (hr : ¬ k.Redraws key beyond)
    (h : k.editorHandleInput answer key beyond = some k') (hopen : k'.editor.isActive = true) :
    k'.screen = k.screen ∧ k'.editor.text = k.editor.text ∨
      k.effect key beyond = .erase ∧ 0 < k.editor.position ∧
        k'.screen = k.screen ++ terminalWritestring (str "\x08 \x08") := by
  have hcase := handles answer key beyond k
  rw [h] at hcase
  rw [Redraws] at hr
  generalize k.effect key beyond = eff at hcase ⊢
  generalize hk : some k' = r at hcase
  cases hcase with
  | none | ctrl => exact .inl (by rw [Option.some.inj hk]; exact ⟨rfl, rfl⟩)
  | shift h67 =>
    refine absurd ⟨?_, ?_, by tauto⟩ hr
    all_goals rcases h67 with rfl | rfl <;> decide
  | command h05 h67 hctrl =>
    rw [if_pos hctrl] at hr
    rw [ctrlKey] at hk
    split_ifs at hk with hq hrun
    · rw [Option.some.inj hk] at hopen
      exact absurd hopen Bool.false_ne_true
    · rw [editor_execute hk.symm] at hopen
      exact absurd hopen Bool.false_ne_true
    · have htwo : k.character key beyond = 2 := by tauto
      rw [Option.some.inj hk, finish, if_neg (not_not.mpr htwo)]
      exact .inl ⟨rfl, rfl⟩
  | erase =>
    rw [Option.some.inj hk, backspaceKey]
    by_cases hpos : 0 < k.editor.position
    · exact .inr ⟨rfl, hpos, by rw [if_pos hpos]; rfl⟩
    · exact .inl (by rw [if_neg hpos]; exact ⟨rfl, rfl⟩)
  | enter hctrl h4 =>
    rw [if_neg hctrl] at hr
    subst h4
    exact absurd (by decide) hr
  | type h05 hctrl h2 | other h05 hctrl h2 =>
    rw [if_neg hctrl] at hr
    exact absurd ⟨h05.1, h05.2, .inr (.inr h2)⟩ hr

/-- What changes the text leaves the editor open. -/
theorem isActive_of_effect (heff : k.effect key beyond ≠ .still)
    (h : k.editorHandleInput answer key beyond = some k') :
    k'.editor.isActive = k.editor.isActive := by
  have hcase := handles answer key beyond k
  rw [h] at hcase
  generalize k.effect key beyond = eff at hcase heff
  generalize hk : some k' = r at hcase
  cases hcase with
  | none | ctrl | shift | command | other => exact absurd rfl heff
  | erase =>
    rw [Option.some.inj hk, backspaceKey]
    by_cases hpos : k.editor.position > 0
    · rw [if_pos hpos, editor_write, EditorState.backspace_eq]
    · rw [if_neg hpos]
  | enter | type =>
    obtain ⟨k₁, hk₁, rfl⟩ := Option.map_eq_some_iff.mp hk.symm
    obtain ⟨e, he, rfl⟩ := Option.map_eq_some_iff.mp hk₁
    obtain ⟨-, rfl⟩ := EditorState.push_eq_some he
    rw [editor_finish]

/-! ## Key by key -/

/-- One key in the editor. -/
def keyStep (answer : Calls → List Byte → Bool) (k : Kernel) (p : KeyPress) : Option Kernel :=
  k.step answer (.key p)

/-- The key is fair, unless the editor is closed or the key leaves the buffer. -/
def FairKey (k : Kernel) (p : KeyPress) : Prop :=
  k.editor.isActive = true → ((k.effectOf (.key p)).apply k.editor).isSome →
    (k.effectOf (.key p)).Fair k.editor

instance {k : Kernel} {p : KeyPress} : Decidable (k.FairKey p) :=
  inferInstanceAs (Decidable (_ → _ → _))

variable {p : KeyPress}

/-- **A key that leaves a tidy text shows it**, if it redraws or the text before was shown. -/
theorem faithful_of_keyStep (htidy : k.editor.Tidy) (hshown : k.RedrawsOn (.key p) ∨ Faithful s k)
    (hfair : k.FairKey p) (h : keyStep answer k p = some k') (hopen : k'.editor.isActive = true) :
    Faithful s k' := by
  obtain ⟨e, he, hk'⟩ := editor_of_step h
  rw [keyStep, step] at h
  split_ifs at h with hactive
  have heff : k.effectOf (.key p) = (p.point k).effect p.key p.beyond := if_pos hactive
  have hfair' := hfair hactive (by rw [he]; rfl)
  have htidy' : k'.editor.Tidy := by
    rw [hk', EditorState.tidy_congr]
    refine (EditorState.tidy_apply_iff htidy he fun c hc h0 => ?_).mpr hfair'
    rw [heff]
    exact effect_ne_type hc h0
  by_cases hr : (p.point k).Redraws p.key p.beyond
  · exact (redrawn_of_redraws hr h).faithful htidy'
  have hbefore : Faithful s k := hshown.resolve_left fun h => hr h.2
  refine ⟨htidy', ?_⟩
  rcases screen_of_not_redraws hr h hopen with ⟨hscreen, htext⟩ | ⟨herase, hpos, hscreen⟩
  · rw [terminal, hscreen, htext]
    exact hbefore.displays
  · rw [heff, herase] at he hfair'
    have hdrop : k'.editor.text = k.editor.text.dropLast := by
      have htext := Effect.text_apply htidy.sized he
      rw [hk']
      exact htext
    have hne := htidy.sized.text_ne_nil hpos
    have hlast : k.editor.text.getLast hne ≠ chr '\n' := fun hnl =>
      hfair'.noJoin ⟨rfl, by rw [List.getLast?_eq_some_getLast hne, hnl]⟩
    have hdisplays := hbefore.displays
    rw [← List.dropLast_append_getLast hne] at hdisplays
    rw [terminal, hscreen, draw_append, hdrop]
    exact hdisplays.erase hlast

/-- **One key**: what is shown is the text still exactly if the key is fair. -/
theorem faithful_keyStep_iff (htidy : k.editor.Tidy)
    (hshown : k.RedrawsOn (.key p) ∨ Faithful s k) :
    (∀ k', keyStep answer k p = some k' → k'.editor.isActive = true → Faithful s k') ↔
      k.FairKey p := by
  refine ⟨fun hall hactive hsome => ?_, fun hfair k' h hopen =>
    faithful_of_keyStep htidy hshown hfair h hopen⟩
  obtain ⟨e, he⟩ := Option.isSome_iff_exists.mp hsome
  have heff : k.effectOf (.key p) = (p.point k).effect p.key p.beyond := if_pos hactive
  by_cases hstill : k.effectOf (.key p) = .still
  · rw [hstill]
    exact htidy.still
  obtain ⟨k', h⟩ := step_of_effect answer hstill he
  have hhandle : (p.point k).editorHandleInput answer p.key p.beyond = some k' := by
    rw [step, if_pos hactive] at h
    exact h
  have hopen : k'.editor.isActive = true :=
    (isActive_of_effect (heff ▸ hstill) hhandle).trans hactive
  obtain ⟨e', he', hk'⟩ := editor_of_step h
  obtain rfl : e = e' := Option.some.inj (he.symm.trans he')
  have htidy' := (hall k' h hopen).tidy
  rw [hk', EditorState.tidy_congr] at htidy'
  refine (EditorState.tidy_apply_iff htidy he fun c hc h0 => ?_).mp htidy'
  rw [heff]
  exact effect_ne_type hc h0

/-- From any kernel that shows its text, if its editor is open. -/
theorem faithful_iff_of_faithful (hk : k.editor.isActive = true → Faithful s k)
    (ps : List KeyPress) :
    (∀ c ∈ trace (keyStep answer) k ps, ∀ k', keyStep answer c.1 c.2 = some k' →
        k'.editor.isActive = true → Faithful s k') ↔
      ∀ c ∈ trace (keyStep answer) k ps, c.1.FairKey c.2 := by
  refine Trace.forall_iff (J := fun k => k.editor.isActive = true → Faithful s k)
    (Q := fun k p => ∀ k', keyStep answer k p = some k' → k'.editor.isActive = true →
      Faithful s k')
    (A := fun k p => k.FairKey p) hk (fun k p hJ => ?_) fun k p k' _ hQ h => hQ k' h
  by_cases hactive : k.editor.isActive = true
  · exact faithful_keyStep_iff (hJ hactive).tidy (.inr (hJ hactive))
  · refine iff_of_true (fun k' h => ?_) fun h => absurd h hactive
    rw [keyStep, step, if_neg hactive] at h
    exact absurd h.symm (Option.some_ne_none k')

/-- **What is shown is what has been edited**: from a redraw of a tidy text on, after every key as
long as the editor is open, exactly if no key types a NUL, joins two lines or makes a text that
does not fit the screen. -/
theorem faithful_iff (answer : Calls → List Byte → Bool) (s : Screen) (htidy : k.editor.Tidy)
    (hp : k.RedrawsOn (.key p)) (ps : List KeyPress) :
    (∀ c ∈ trace (keyStep answer) k (p :: ps), ∀ k', keyStep answer c.1 c.2 = some k' →
        k'.editor.isActive = true → Faithful s k') ↔
      ∀ c ∈ trace (keyStep answer) k (p :: ps), c.1.FairKey c.2 := by
  rw [Trace.forall_cons_iff (Q := fun k p => ∀ k', keyStep answer k p = some k' →
      k'.editor.isActive = true → Faithful s k'),
    Trace.forall_cons_iff (Q := fun k p => FairKey k p), faithful_keyStep_iff htidy (.inl hp)]
  refine and_congr_right fun hfair => forall_congr' fun k' => forall_congr' fun h => ?_
  exact faithful_iff_of_faithful (faithful_of_keyStep htidy (.inl hp) hfair h) ps

theorem tidy_boot : boot.editor.Tidy where
  sized := clean_boot.1
  clean := clean_boot.2
  cursor := ⟨rfl, rfl⟩
  noBackspace := List.not_mem_nil
  onePage := ⟨by decide, by decide⟩

/-- Two lines, and a letter taken back, in the editor just opened. -/
theorem faithful_lines : boot.openEditor.editor.Tidy ∧
    ∀ c ∈ trace (keyStep fun _ _ => true) boot.openEditor
        ([chr 'a', 4, chr 'b', chr 'c', 2].map fun key => ⟨key, false, 0⟩),
      ∀ k', keyStep (fun _ _ => true) c.1 c.2 = some k' → k'.editor.isActive = true →
        Faithful ⟨0, 0, 0, fun _ => 0⟩ k' := by
  have htidy : boot.openEditor.editor.Tidy := EditorState.tidy_congr.mpr tidy_boot
  have hredraws : boot.openEditor.RedrawsOn (.key ⟨chr 'a', false, 0⟩) :=
    ⟨rfl, by decide, by decide, .inr (.inr (by decide))⟩
  exact ⟨htidy, (faithful_iff (fun _ _ => true) _ htidy hredraws
    ([4, chr 'b', chr 'c', 2].map fun key => ⟨key, false, 0⟩)).mpr (by decide +kernel)⟩

end Kernel

end HuskyKernel
