import HuskyKernel.Drivers.Keyboard
import HuskyKernel.Kernel.Editor
import HuskyKernel.Logic.Trace

/-!
# Kernel/CommandLine — how the prompt reads a command

`terminal_input` puts one key after another into the command buffer.  What it holds is what a list
of keystrokes holds from which Backspace takes the last (`Draft`), as long as that fits.  So its
stores are inside the buffer exactly if the keys never ask for more (`command_bounds_iff`), and the
command is what was typed exactly if every keystroke that is left has a character
(`command_whole_iff`).
-/

namespace HuskyKernel

/-- The size of `command`. -/
def commandSize : ℕ := 256

/-- `command`, `buffer_index`, whether `*shift` is set, and what has been echoed.  `shift` is a null
pointer: the flag lies at address 0 and outlives the line. -/
structure CommandLine where
  buffer : List Byte
  bufferIndex : ℕ
  shift : Bool
  screen : List TerminalOp
  size : buffer.length = commandSize

namespace CommandLine

/-- `input_buffer[*buffer_index] = b`; `none` where that is not in the buffer. -/
def store (b : Byte) (c : CommandLine) : Option CommandLine :=
  if c.bufferIndex < commandSize then
    some { c with buffer := c.buffer.set c.bufferIndex b, size := List.length_set.trans c.size }
  else none

/-- `terminal_putchar`. -/
def echo (b : Byte) (c : CommandLine) : CommandLine := { c with screen := c.screen ++ [.putchar b] }

variable (layout : KeyboardLayout) (beyond : Byte → Byte)

/-- The character of a key; `beyond` is what lies behind the row of the layout. -/
def inputChar (shift : Bool) (key : Byte) : Byte :=
  if key < 128 then layoutEntry ((if shift then shiftedLayout else usAsciiToLayout) layout) key
  else beyond key

/-- `terminal_input`, once `keyboard_read_key` has returned `key`. -/
def terminalInput (key : Byte) (c : CommandLine) : Option (Bool × CommandLine) :=
  if key = 0 then some (false, c)
  else if key = 4 then (c.store 0).map fun c => (true, { c with shift := false })
  else if key = 2 then
    let c := { c with shift := false }
    some (false, if c.bufferIndex > 0 then
      { c with bufferIndex := c.bufferIndex - 1 }.echo 0x08 else c)
  else if key = 1 then some (false, { c with shift := false })
  else if key = 5 then some (false, { c with shift := false })
  else if key = 6 ∨ key = 7 then some (false, { c with shift := true })
  else
    let input_char := inputChar layout beyond c.shift key
    (c.store input_char).map fun c =>
      (false, { ({ c with bufferIndex := c.bufferIndex + 1 }.echo input_char) with shift := false })

/-- The indices a call stores to. -/
def stores (key : Byte) (c : CommandLine) : List ℕ :=
  if key = 0 ∨ key = 1 ∨ key = 2 ∨ key = 5 ∨ key = 6 ∨ key = 7 then [] else [c.bufferIndex]

/-- `while (!terminal_input(command, &buffer_index, shift));` -/
def readLine : List Byte → CommandLine → Option CommandLine
  | [], _ => none
  | key :: keys, c =>
      (c.terminalInput layout beyond key).bind fun (done, c) =>
        if done then some c else readLine keys c

/-- A call that goes on with the line. -/
def goOn (c : CommandLine) (key : Byte) : Option CommandLine :=
  (c.terminalInput layout beyond key).bind fun (done, c) => if done then none else some c

/-- `buffer_index = 0;` -/
def start (c : CommandLine) : CommandLine := { c with bufferIndex := 0 }

end CommandLine

/-! ## What has been typed and not erased -/

/-- The pending shift, and the keystrokes held, each with the shift it was made with. -/
structure Draft where
  shift : Bool
  strokes : List (Bool × Byte)

namespace Draft

/-- One key. -/
def press (d : Draft) (key : Byte) : Draft :=
  if key = 0 ∨ key = 4 then d
  else if key = 2 then ⟨false, d.strokes.dropLast⟩
  else if key = 1 ∨ key = 5 then ⟨false, d.strokes⟩
  else if key = 6 ∨ key = 7 then ⟨true, d.strokes⟩
  else ⟨false, d.strokes ++ [(d.shift, key)]⟩

/-- What a line of keys leaves. -/
def typed (shift : Bool) (keys : List Byte) : Draft := keys.foldl press ⟨shift, []⟩

/-- How many characters a line of keys leaves held. -/
def held (keys : List Byte) : ℕ := (typed false keys).strokes.length

/-- A key that is a keystroke. -/
def Typed (key : Byte) : Prop := key ∉ ([0, 1, 2, 4, 5, 6, 7] : List Byte)

instance {key : Byte} : Decidable (Typed key) := inferInstanceAs (Decidable (¬ _))

variable {d d' : Draft} {key : Byte} {keys : List Byte} {p : Bool × Byte}

theorem press_of_typed (h : Typed key) :
    d.press key = ⟨false, d.strokes ++ [(d.shift, key)]⟩ := by
  simp only [Typed, List.mem_cons, List.not_mem_nil, or_false, not_or] at h
  obtain ⟨h0, h1, h2, h4, h5, h6, h7⟩ := h
  rw [press, if_neg (not_or.mpr ⟨h0, h4⟩), if_neg h2, if_neg (not_or.mpr ⟨h1, h5⟩),
    if_neg (not_or.mpr ⟨h6, h7⟩)]

/-- The number of keystrokes does not depend on the shifts. -/
theorem length_press (h : d.strokes.length = d'.strokes.length) :
    (d.press key).strokes.length = (d'.press key).strokes.length := by
  rw [press, press]
  split_ifs
  · exact h
  · simp only [List.length_dropLast, h]
  · exact h
  · exact h
  · simp only [List.length_append, h, List.length_singleton]

theorem length_foldl_press (h : d.strokes.length = d'.strokes.length) (keys : List Byte) :
    (keys.foldl press d).strokes.length = (keys.foldl press d').strokes.length := by
  induction keys generalizing d d' with
  | nil => exact h
  | cons key keys ih => exact ih (length_press h)

theorem length_typed (s : Bool) (keys : List Byte) :
    (typed s keys).strokes.length = held keys := by
  have hnil : (⟨s, []⟩ : Draft).strokes.length = (⟨false, []⟩ : Draft).strokes.length := rfl
  exact length_foldl_press hnil keys

/-- A key makes one keystroke at most. -/
theorem length_press_le (d : Draft) (key : Byte) :
    (d.press key).strokes.length ≤ d.strokes.length + 1 := by
  rw [press]
  split_ifs
  · exact Nat.le_succ _
  · rw [List.length_dropLast]
    omega
  · exact Nat.le_succ _
  · exact Nat.le_succ _
  · rw [List.length_append, List.length_singleton]

theorem length_foldl_press_le (keys : List Byte) (d : Draft) :
    (keys.foldl press d).strokes.length ≤ d.strokes.length + keys.length := by
  induction keys generalizing d with
  | nil => exact Nat.le_refl _
  | cons key keys ih =>
    have hrest := ih (d.press key)
    have hfirst := d.length_press_le key
    rw [List.foldl_cons, List.length_cons]
    omega

/-- Keystrokes alone are all held. -/
theorem length_foldl_of_typed (h : ∀ key ∈ keys, Typed key) :
    (keys.foldl press d).strokes.length = d.strokes.length + keys.length := by
  induction keys generalizing d with
  | nil => rfl
  | cons key keys ih =>
    rw [List.foldl_cons, ih fun k hk => h k (List.mem_cons_of_mem _ hk),
      press_of_typed (h key List.mem_cons_self), List.length_append, List.length_singleton,
      List.length_cons]
    omega

/-- No other key makes one. -/
theorem strokes_press_subset (h : ¬ Typed key) : (d.press key).strokes ⊆ d.strokes := by
  rw [press]
  split_ifs with h04 h2 h15 h67
  · exact List.Subset.refl _
  · exact List.dropLast_subset _
  · exact List.Subset.refl _
  · exact List.Subset.refl _
  · refine absurd ?_ h
    simp only [Typed, List.mem_cons, List.not_mem_nil, or_false]
    tauto

/-- Every keystroke held has been made. -/
theorem mem_foldl_press (h : p ∈ (keys.foldl press d).strokes) :
    p ∈ d.strokes ∨ p.2 ∈ keys ∧ Typed p.2 := by
  induction keys generalizing d with
  | nil => exact Or.inl h
  | cons key keys ih =>
    rcases ih h with hmem | ⟨hmem, htyped⟩
    · by_cases htyped : Typed key
      · rw [press_of_typed htyped] at hmem
        rcases List.mem_append.mp hmem with hmem | hmem
        · exact Or.inl hmem
        · obtain rfl := List.mem_singleton.mp hmem
          exact Or.inr ⟨List.mem_cons_self, htyped⟩
      · exact Or.inl (strokes_press_subset htyped hmem)
    · exact Or.inr ⟨List.mem_cons_of_mem _ hmem, htyped⟩

end Draft

namespace CommandLine

variable {layout : KeyboardLayout} {beyond : Byte → Byte} {c c' : CommandLine} {d : Draft}
  {key : Byte} {keys : List Byte}

/-! ## One key -/

/-- A key that is stored: a character, or Enter. -/
def Stored (key : Byte) : Prop :=
  ¬ (key = 0 ∨ key = 1 ∨ key = 2 ∨ key = 5 ∨ key = 6 ∨ key = 7)

instance : Decidable (Stored key) := inferInstanceAs (Decidable (¬ _))

/-- The line holds the characters of the keystrokes of `d`. -/
structure Refines (layout : KeyboardLayout) (beyond : Byte → Byte) (c : CommandLine) (d : Draft) :
    Prop where
  index : c.bufferIndex = d.strokes.length
  shift : c.shift = d.shift
  text : c.buffer.take c.bufferIndex = d.strokes.map fun p => inputChar layout beyond p.1 p.2

theorem refines_start (c : CommandLine) : Refines layout beyond c.start ⟨c.shift, []⟩ :=
  ⟨rfl, rfl, rfl⟩

theorem store_of_lt (b : Byte) (h : c.bufferIndex < commandSize) : c.store b = some { c with
    buffer := c.buffer.set c.bufferIndex b, size := List.length_set.trans c.size } := if_pos h

/-- Backspace takes the last keystroke, if there is one. -/
theorem refines_erase (h : Refines layout beyond c d) :
    Refines layout beyond (if c.bufferIndex > 0 then
      { c with shift := false, bufferIndex := c.bufferIndex - 1 }.echo 0x08
      else { c with shift := false }) ⟨false, d.strokes.dropLast⟩ := by
  obtain ⟨hindex, -, htext⟩ := h
  have hlen : (c.buffer.take c.bufferIndex).length = c.bufferIndex := by
    rw [htext, List.length_map, hindex]
  by_cases hpos : c.bufferIndex > 0
  · rw [if_pos hpos]
    refine ⟨?_, rfl, ?_⟩
    · rw [List.length_dropLast, ← hindex]
      rfl
    · rw [List.map_dropLast, ← htext, List.dropLast_eq_take, hlen, List.take_take,
        Nat.min_eq_left (Nat.sub_le _ _)]
      rfl
  · have hnil : d.strokes = [] := List.length_eq_zero_iff.mp (by omega)
    rw [hnil] at hindex htext ⊢
    rw [if_neg hpos]
    exact ⟨hindex, rfl, htext⟩

/-- A character goes behind the text. -/
theorem take_set_succ {l : List Byte} {i : ℕ} (hi : i < l.length) (b : Byte) :
    (l.set i b).take (i + 1) = l.take i ++ [b] := by
  rw [List.take_succ_eq_append_getElem (by rwa [List.length_set]), List.getElem_set_self,
    List.take_set_of_le (Nat.le_refl _)]

/-- **A key in the line is a key in the draft.** -/
theorem refines_press (h : Refines layout beyond c d) (h4 : key ≠ 4)
    (hroom : Stored key → c.bufferIndex < commandSize) :
    ∃ c', c.terminalInput layout beyond key = some (false, c') ∧
      Refines layout beyond c' (d.press key) := by
  have ⟨hindex, hshift, htext⟩ := h
  rw [terminalInput, Draft.press]
  by_cases h0 : key = 0
  · rw [if_pos h0, if_pos (Or.inl h0)]
    exact ⟨c, rfl, hindex, hshift, htext⟩
  have h04 : ¬ (key = 0 ∨ key = 4) := not_or.mpr ⟨h0, h4⟩
  rw [if_neg h0, if_neg h4, if_neg h04]
  by_cases h2 : key = 2
  · rw [if_pos h2, if_pos h2]
    exact ⟨_, rfl, refines_erase (c := c) h⟩
  rw [if_neg h2, if_neg h2]
  by_cases h1 : key = 1
  · rw [if_pos h1, if_pos (Or.inl h1)]
    exact ⟨_, rfl, hindex, rfl, htext⟩
  rw [if_neg h1]
  by_cases h5 : key = 5
  · rw [if_pos h5, if_pos (Or.inr h5)]
    exact ⟨_, rfl, hindex, rfl, htext⟩
  have h15 : ¬ (key = 1 ∨ key = 5) := not_or.mpr ⟨h1, h5⟩
  rw [if_neg h5, if_neg h15]
  by_cases h67 : key = 6 ∨ key = 7
  · rw [if_pos h67, if_pos h67]
    exact ⟨_, rfl, hindex, rfl, htext⟩
  rw [if_neg h67, if_neg h67]
  have hlt := hroom (by rw [Stored]; tauto)
  simp only [store_of_lt _ hlt, Option.map_some]
  refine ⟨_, rfl, ?_, rfl, ?_⟩
  · rw [List.length_append, ← hindex]
    rfl
  · rw [List.map_append, ← htext, ← hshift]
    exact take_set_succ (c.size.symm ▸ hlt) _

/-! ## The bounds of the buffer -/

theorem goOn_enter : c.goOn layout beyond 4 = none := by
  rw [goOn, terminalInput, if_neg (by decide), if_pos rfl]
  cases c.store 0 <;> rfl

theorem forall_stores_iff {n : ℕ} :
    (∀ i ∈ c.stores key, i < n) ↔ (Stored key → c.bufferIndex < n) := by
  rw [stores]
  split_ifs with h
  · exact iff_of_true (fun i hi => absurd hi List.not_mem_nil) fun hs => absurd h hs
  · rw [List.forall_mem_singleton]
    exact ⟨fun hlt _ => hlt, fun hlt => hlt h⟩

/-- Every store of the calls from `c` on is inside the buffer exactly if the keys, from the draft
on, never ask for more. -/
theorem bounds_iff_of_refines (h : Refines layout beyond c d) (keys : List Byte) :
    (∀ s ∈ trace (goOn layout beyond) c keys, ∀ i ∈ s.1.stores s.2, i < commandSize) ↔
      ∀ ks key, ks ++ [key] <+: keys → 4 ∉ ks → Stored key →
        (ks.foldl Draft.press d).strokes.length < commandSize := by
  induction keys generalizing c d with
  | nil =>
    refine iff_of_true (fun s hs => absurd hs List.not_mem_nil) fun ks key hpre => ?_
    exact absurd (List.prefix_nil.mp hpre) (by simp)
  | cons k keys ih =>
    rw [Trace.forall_cons_iff (Q := fun c k => ∀ i ∈ stores k c, i < commandSize),
      Trace.forall_prefix_cons, forall_stores_iff, h.index]
    by_cases hroom : Stored k → d.strokes.length < commandSize
    case neg =>
      exact iff_of_false (fun hall => hroom hall.1) fun hall => hroom (hall.1 List.not_mem_nil)
    by_cases h4 : k = 4
    · subst h4
      refine iff_of_true ⟨hroom, fun t ht => ?_⟩ ⟨fun _ => hroom, fun ks key _ hnot => ?_⟩
      · rw [goOn_enter] at ht
        cases ht
      · exact absurd List.mem_cons_self hnot
    obtain ⟨c', hc', hrefines⟩ := refines_press h h4 fun hs => h.index ▸ hroom hs
    have hgo : c.goOn layout beyond k = some c' := by
      rw [goOn, hc']
      rfl
    have hrest := ih hrefines
    constructor
    · rintro ⟨_, hall⟩
      refine ⟨fun _ => hroom, fun ks key hpre hnot => ?_⟩
      exact hrest.mp (hall c' hgo) ks key hpre fun hmem => hnot (List.mem_cons_of_mem _ hmem)
    · rintro ⟨_, hall⟩
      refine ⟨hroom, fun t ht => ?_⟩
      obtain rfl := Option.some.inj (hgo.symm.trans ht)
      exact hrest.mpr fun ks key hpre hnot =>
        hall ks key hpre (List.not_mem_cons_of_ne_of_not_mem (Ne.symm h4) hnot)

/-- **The command buffer is never overrun exactly if no character and no Enter is read while it is
full.** -/
theorem command_bounds_iff (layout : KeyboardLayout) (beyond : Byte → Byte) (c : CommandLine)
    (keys : List Byte) :
    (∀ s ∈ trace (goOn layout beyond) c.start keys, ∀ i ∈ s.1.stores s.2, i < commandSize) ↔
      ∀ ks key, ks ++ [key] <+: keys → 4 ∉ ks → Stored key → Draft.held ks < commandSize := by
  rw [bounds_iff_of_refines (refines_start c) keys]
  have hheld : ∀ ks, (ks.foldl Draft.press ⟨c.shift, []⟩).strokes.length = Draft.held ks :=
    Draft.length_typed c.shift
  simp only [hheld]

/-- A line that nothing has been typed on yet. -/
def blankLine : CommandLine := ⟨List.replicate commandSize 0, 0, false, [], List.length_replicate⟩

/-- Letters typed on it are never held back. -/
theorem not_bounds_of_letters {n : ℕ} (hn : commandSize ≤ n) :
    ¬ ∀ s ∈ trace (goOn .us fun _ => 0) blankLine.start (List.replicate (n + 1) (chr 'a')),
      ∀ i ∈ s.1.stores s.2, i < commandSize := by
  intro hall
  have hletters : ∀ key ∈ List.replicate n (chr 'a'), key = chr 'a' := fun _ =>
    List.eq_of_mem_replicate
  have hroom := (bounds_iff_of_refines (refines_start blankLine) _).mp hall
    (List.replicate n (chr 'a')) (chr 'a') (List.replicate_succ' ▸ List.prefix_refl _)
    (fun hmem => absurd (hletters _ hmem) (by decide)) (by decide)
  rw [Draft.length_foldl_of_typed fun key hmem => hletters key hmem ▸ by decide,
    List.length_replicate, List.length_nil] at hroom
  omega

/-- Of 257 letters typed on a blank line the last is stored behind the buffer. -/
theorem not_command_bounds_letters :
    ¬ ∀ s ∈ trace (goOn .us fun _ => 0) blankLine.start
        (List.replicate (commandSize + 1) (chr 'a')),
      ∀ i ∈ s.1.stores s.2, i < commandSize := not_bounds_of_letters (Nat.le_refl _)

/-! ## What the line leaves -/

/-- A line of keys of the PS/2 table, without Enter, that never holds `room` characters. -/
structure TypedLine (room : ℕ) where
  keys : List Byte
  ps2 : ∀ key ∈ keys, key ∈ scancodeToAscii
  noEnter : 4 ∉ keys
  fits : ∀ ks, ks <+: keys → Draft.held ks < room

/-- A line of fewer keys than that. -/
def TypedLine.ofShort {room : ℕ} (keys : List Byte) (hps2 : ∀ key ∈ keys, key ∈ scancodeToAscii)
    (hnoEnter : 4 ∉ keys) (hroom : keys.length < room) : TypedLine room where
  keys := keys
  ps2 := hps2
  noEnter := hnoEnter
  fits ks hks := by
    have hheld : Draft.held ks ≤ 0 + ks.length := Draft.length_foldl_press_le ks _
    have hlen := hks.length_le
    omega

/-- There may be more room than that. -/
def TypedLine.widen {m n : ℕ} (l : TypedLine m) (h : m ≤ n) : TypedLine n :=
  { l with fits := fun ks hks => (l.fits ks hks).trans_le h }

@[simp] theorem TypedLine.keys_widen {m n : ℕ} (l : TypedLine m) (h : m ≤ n) :
    (l.widen h).keys = l.keys := rfl

/-- **A line of keys in the buffer is the same line in the draft** — induction on the keys. -/
theorem run_of_refines (h : Refines layout beyond c d) (hkeys : 4 ∉ keys)
    (hroom : ∀ ks, ks <+: keys → (ks.foldl Draft.press d).strokes.length < commandSize) :
    ∃ c', Trace.run (goOn layout beyond) c keys = some c' ∧
      Refines layout beyond c' (keys.foldl Draft.press d) ∧
      ∀ rest, readLine layout beyond (keys ++ rest) c = readLine layout beyond rest c' := by
  induction keys generalizing c d with
  | nil => exact ⟨c, rfl, h, fun _ => rfl⟩
  | cons key keys ih =>
    obtain ⟨hne, hnot⟩ := not_or.mp (mt List.mem_cons.mpr hkeys)
    have hlt : d.strokes.length < commandSize := hroom [] List.nil_prefix
    obtain ⟨c₁, hpress, hrefines⟩ := refines_press h (Ne.symm hne) fun _ => h.index ▸ hlt
    obtain ⟨c', hrun, href, hread⟩ := ih hrefines hnot fun ks hks =>
      hroom (key :: ks) ((List.prefix_cons_inj key).mpr hks)
    have hgo : c.goOn layout beyond key = some c₁ := by
      rw [goOn, hpress]
      rfl
    refine ⟨c', (Trace.run_cons hgo).trans hrun, href, fun rest => ?_⟩
    rw [List.cons_append, readLine, hpress]
    exact hread rest

/-- Enter puts a NUL behind the line. -/
theorem readLine_enter (layout : KeyboardLayout) (beyond : Byte → Byte) (rest : List Byte)
    (h : c.bufferIndex < commandSize) :
    ∃ c', readLine layout beyond (4 :: rest) c = some c' ∧ c'.bufferIndex = c.bufferIndex ∧
      cstr c'.buffer = cstr (c.buffer.take c.bufferIndex) := by
  have hset : c.buffer.set c.bufferIndex 0
      = c.buffer.take c.bufferIndex ++ 0 :: c.buffer.drop (c.bufferIndex + 1) :=
    List.set_eq_take_append_cons_drop.trans (if_pos (c.size ▸ h))
  have hin : terminalInput layout beyond 4 c = some (true, { c with
      buffer := c.buffer.set c.bufferIndex 0, size := List.length_set.trans c.size
      shift := false }) := by
    rw [terminalInput, if_neg (by decide), if_pos rfl, store_of_lt _ h]
    rfl
  rw [readLine, hin]
  refine ⟨_, rfl, rfl, ?_⟩
  change cstr (c.buffer.set c.bufferIndex 0) = _
  rw [hset, cstr_append_cons_zero]

/-- **The line a `TypedLine` leaves**: the C string of the characters of its keystrokes. -/
theorem readLine_typed (layout : KeyboardLayout) (beyond : Byte → Byte)
    (l : TypedLine commandSize) (c : CommandLine) (rest : List Byte) :
    ∃ c', readLine layout beyond (l.keys ++ 4 :: rest) c.start = some c' ∧
      c'.bufferIndex = (Draft.typed c.shift l.keys).strokes.length ∧
      cstr c'.buffer = cstr ((Draft.typed c.shift l.keys).strokes.map fun p =>
        inputChar layout beyond p.1 p.2) := by
  have hheld (ks : List Byte) :
      (ks.foldl Draft.press ⟨c.shift, []⟩).strokes.length = Draft.held ks :=
    Draft.length_typed c.shift ks
  have hstart : Refines layout beyond c.start ⟨c.shift, []⟩ := refines_start c
  obtain ⟨c₁, -, hrefines, hread⟩ := run_of_refines hstart l.noEnter fun ks hks =>
    (hheld ks).symm ▸ l.fits ks hks
  have hlt : c₁.bufferIndex < commandSize := by
    rw [hrefines.index, hheld]
    exact l.fits _ (List.prefix_refl _)
  obtain ⟨c', hc', hindex, htext⟩ := readLine_enter layout beyond rest hlt
  exact ⟨c', (hread (4 :: rest)).trans hc', hindex.trans hrefines.index,
    htext.trans (congrArg cstr hrefines.text)⟩

/-! ## The whole command -/

/-- The layout was written, and has a character for the key. -/
def HasCharacter (layout : KeyboardLayout) (key : Byte) : Prop :=
  (layout = .us ∨ layout = .de) ∧ key ≠ 8 ∧ key ≠ chr '*'

instance : Decidable (HasCharacter layout key) := inferInstanceAs (Decidable (_ ∧ _))

/-- The keystrokes of the table are the keys of the layouts, Alt, and the star of the keypad. -/
theorem typed_mem (hmem : key ∈ scancodeToAscii) (htyped : Draft.Typed key) :
    key ∈ 8 :: chr '*' :: layoutKeys := by
  have htable : ∀ key ∈ scancodeToAscii, Draft.Typed key → key ∈ 8 :: chr '*' :: layoutKeys := by
    decide +kernel
  exact htable key hmem htyped

theorem lt_of_typed_mem (hmem : key ∈ 8 :: chr '*' :: layoutKeys) : key < 128 := by
  have htable : ∀ key ∈ 8 :: chr '*' :: layoutKeys, key < 128 := by decide +kernel
  exact htable key hmem

/-- In the layout each of them has a character or none. -/
theorem inputChar_ne_zero_iff (beyond : Byte → Byte) (layout : KeyboardLayout) (shift : Bool)
    (hmem : key ∈ 8 :: chr '*' :: layoutKeys) :
    inputChar layout beyond shift key ≠ 0 ↔ HasCharacter layout key := by
  have htable : ∀ key ∈ 8 :: chr '*' :: layoutKeys,
      (layoutEntry ((if shift then shiftedLayout else usAsciiToLayout) layout) key ≠ 0 ↔
        HasCharacter layout key) := by
    cases shift <;> cases layout <;> decide +kernel
  rw [inputChar, if_pos (lt_of_typed_mem hmem)]
  exact htable key hmem

/-- **The command is all that was typed and not erased exactly if the layout has a character for
every key of it.** -/
theorem command_whole_iff (layout : KeyboardLayout) (beyond : Byte → Byte) (c : CommandLine)
    (l : TypedLine commandSize) :
    ∃ c', readLine layout beyond (l.keys ++ [4]) c.start = some c' ∧
      ((cstr c'.buffer).length = c'.bufferIndex ↔
        ∀ p ∈ (Draft.typed c.shift l.keys).strokes, HasCharacter layout p.2) := by
  obtain ⟨c', hread, hindex, htext⟩ := readLine_typed layout beyond l c []
  have hlen : ((Draft.typed c.shift l.keys).strokes.map fun p =>
      inputChar layout beyond p.1 p.2).length = _ := List.length_map _
  refine ⟨c', hread, ?_⟩
  rw [hindex, htext, ← hlen, length_cstr_iff, List.mem_map, not_exists]
  refine forall_congr' fun p => ?_
  rw [not_and]
  refine forall_congr' fun hp => ?_
  rcases Draft.mem_foldl_press hp with hnil | ⟨hmem, htyped⟩
  · exact absurd hnil List.not_mem_nil
  · exact inputChar_ne_zero_iff beyond layout p.1 (typed_mem (l.ps2 _ hmem) htyped)

/-- Left Alt alone. -/
def altLine : TypedLine commandSize := .ofShort [8] (by decide +kernel) (by decide) (by decide)

/-- Left Alt is stored as a NUL, which ends a command of one character before it. -/
theorem not_command_whole_alt : ¬ ∀ (layout : KeyboardLayout) (beyond : Byte → Byte)
    (c c' : CommandLine) (l : TypedLine commandSize),
    readLine layout beyond (l.keys ++ [4]) c.start = some c' →
      (cstr c'.buffer).length = c'.bufferIndex := by
  intro hall
  obtain ⟨c', hread, hindex, htext⟩ := readLine_typed .us (fun _ => 0) altLine blankLine []
  have heq := hall .us _ blankLine c' altLine hread
  rw [hindex, htext] at heq
  exact absurd heq (by decide)

end CommandLine

end HuskyKernel
