import HuskyKernel.Kernel.CommandLine

/-!
# Kernel/Keystrokes — which commands can be typed

A row of a layout gives a key its character; `keysFor` goes back, with Shift where the character is
in the other row, and Escape first, which takes back a Shift that is still pending.  So what can be
typed in a layout is every short text of its characters, and no other (`typed_iff`): in the layouts
that were never written, nothing at all.
-/

namespace HuskyKernel

namespace CommandLine

/-- The text of a line, in a layout, with the shift that is pending. -/
def TypedLine.text {room : ℕ} (l : TypedLine room) (layout : KeyboardLayout) (beyond : Byte → Byte)
    (shift : Bool) : List Byte :=
  cstr ((Draft.typed shift l.keys).strokes.map fun p => inputChar layout beyond p.1 p.2)

/-- The characters of a layout. -/
def typable (layout : KeyboardLayout) : List Byte := usAsciiToLayout layout ++ shiftedLayout layout

/-- The key of a character in a row. -/
def keyIn (row : List Byte) (c : Byte) : Option Byte := (row.zip layoutKeys).lookup c

/-- The keystroke of a character: with Shift if it is not in the other row. -/
def strokeOf (layout : KeyboardLayout) (c : Byte) : Bool × Byte :=
  match keyIn (usAsciiToLayout layout) c with
  | some key => (false, key)
  | none => (true, (keyIn (shiftedLayout layout) c).getD 0)

/-- The keys of a keystroke. -/
def keysOf (p : Bool × Byte) : List Byte := if p.1 then [6, p.2] else [p.2]

/-- The keys of a text. -/
def keysFor (layout : KeyboardLayout) (text : List Byte) : List Byte :=
  1 :: text.flatMap fun c => keysOf (strokeOf layout c)

variable {layout : KeyboardLayout} {beyond : Byte → Byte} {c key : Byte} {d : Draft}
  {text keys : List Byte} {shift : Bool} {p : Bool × Byte}

/-! ## One character -/

/-- **The keystroke of a character has it.** -/
theorem strokeOf_spec (beyond : Byte → Byte) (hc : c ∈ typable layout) :
    (strokeOf layout c).2 ∈ scancodeToAscii ∧
    Draft.Typed (strokeOf layout c).2 ∧
    inputChar layout beyond (strokeOf layout c).1 (strokeOf layout c).2 = c := by
  have htable : ∀ c ∈ typable layout, (strokeOf layout c).2 ∈ scancodeToAscii ∧
      Draft.Typed (strokeOf layout c).2 ∧ (strokeOf layout c).2 < 128 ∧
      layoutEntry ((if (strokeOf layout c).1 then shiftedLayout else usAsciiToLayout) layout)
        (strokeOf layout c).2 = c := by
    cases layout <;> decide +kernel
  obtain ⟨hmem, htyped, hlt, hentry⟩ := htable c hc
  exact ⟨hmem, htyped, (if_pos hlt).trans hentry⟩

/-- No character of a layout is a NUL. -/
theorem ne_zero_of_typable (hc : c ∈ typable layout) : c ≠ 0 := by
  rcases List.mem_append.mp hc with hc | hc
  · rintro rfl
    exact absurd ((space_le_of_mem layout).1 0 hc) (by decide)
  · rintro rfl
    exact absurd ((space_le_of_mem layout).2 0 hc) (by decide)

/-- What a key makes is a character of the layout, or nothing. -/
theorem inputChar_typable (hlt : key < 128) :
    inputChar layout beyond shift key = 0 ∨ inputChar layout beyond shift key ∈ typable layout := by
  rw [inputChar, if_pos hlt]
  refine (layoutEntry_mem _ key).imp_right fun hmem => List.mem_append.mpr ?_
  cases shift with
  | false => exact .inl hmem
  | true => exact .inr hmem

/-! ## A text -/

/-- A keystroke, with or without Shift, is held with it. -/
theorem foldl_keysOf (htyped : Draft.Typed p.2) (hd : d.shift = false) :
    (keysOf p).foldl Draft.press d = ⟨false, d.strokes ++ [p]⟩ := by
  obtain ⟨shift, key⟩ := p
  cases shift with
  | false =>
    rw [keysOf, if_neg Bool.false_ne_true, List.foldl_cons, Draft.press_of_typed htyped, hd]
    rfl
  | true =>
    have hshift : d.press 6 = ⟨true, d.strokes⟩ := by
      rw [Draft.press, if_neg (by decide), if_neg (by decide), if_neg (by decide),
        if_pos (by decide)]
    rw [keysOf, if_pos rfl, List.foldl_cons, hshift, List.foldl_cons,
      Draft.press_of_typed htyped]
    rfl

/-- **The keys of a text are its keystrokes** — induction on the text. -/
theorem foldl_flatMap_keysOf (htext : ∀ c ∈ text, c ∈ typable layout) (hd : d.shift = false) :
    (text.flatMap fun c => keysOf (strokeOf layout c)).foldl Draft.press d =
      ⟨false, d.strokes ++ text.map (strokeOf layout)⟩ := by
  induction text generalizing d with
  | nil =>
    rw [List.map_nil, List.append_nil, ← hd]
    rfl
  | cons c text ih =>
    obtain ⟨hc, hrest⟩ := List.forall_mem_cons.mp htext
    rw [List.flatMap_cons, List.foldl_append,
      foldl_keysOf (strokeOf_spec (fun _ => 0) hc).2.1 hd, ih hrest rfl, List.map_cons,
      List.append_assoc, List.singleton_append]

theorem typed_keysFor (shift : Bool) (htext : ∀ c ∈ text, c ∈ typable layout) :
    Draft.typed shift (keysFor layout text) = ⟨false, text.map (strokeOf layout)⟩ := by
  have hescape : (⟨shift, []⟩ : Draft).press 1 = ⟨false, []⟩ := by
    rw [Draft.press, if_neg (by decide), if_neg (by decide), if_pos (by decide)]
  rw [Draft.typed, keysFor, List.foldl_cons, hescape, foldl_flatMap_keysOf htext rfl,
    List.nil_append]

/-- Without Backspace nothing that is held is lost. -/
theorem length_le_foldl_press (h2 : 2 ∉ keys) :
    d.strokes.length ≤ (keys.foldl Draft.press d).strokes.length := by
  induction keys generalizing d with
  | nil => exact le_rfl
  | cons key keys ih =>
    obtain ⟨hne, hrest⟩ := not_or.mp (mt List.mem_cons.mpr h2)
    refine le_trans ?_ (ih hrest)
    rw [Draft.press]
    split_ifs with h h'
    · exact le_rfl
    · exact absurd h'.symm hne
    · exact le_rfl
    · exact le_rfl
    · rw [List.length_append]
      exact Nat.le_add_right _ _

/-- The keys of a text are Escape, Shift and keystrokes. -/
theorem mem_keysFor (htext : ∀ c ∈ text, c ∈ typable layout) (hkey : key ∈ keysFor layout text) :
    key = 1 ∨ key = 6 ∨ key ∈ scancodeToAscii ∧ Draft.Typed key := by
  rcases List.mem_cons.mp hkey with rfl | hkey
  · exact .inl rfl
  obtain ⟨c, hc, hkey⟩ := List.mem_flatMap.mp hkey
  obtain ⟨hmem, htyped, -⟩ := strokeOf_spec (fun _ => 0) (htext c hc)
  have hcases : key = 6 ∨ key = (strokeOf layout c).2 := by
    rw [keysOf] at hkey
    split_ifs at hkey
    · simpa using hkey
    · exact .inr (List.mem_singleton.mp hkey)
  rcases hcases with rfl | rfl
  · exact .inr (.inl rfl)
  · exact .inr (.inr ⟨hmem, htyped⟩)

/-- The line that types a text. -/
def TypedLine.ofText (htext : ∀ c ∈ text, c ∈ typable layout) (hlen : text.length < commandSize) :
    TypedLine commandSize where
  keys := keysFor layout text
  ps2 key hkey := by
    rcases mem_keysFor htext hkey with rfl | rfl | h
    · decide +kernel
    · decide +kernel
    · exact h.1
  noEnter hkey := by
    rcases mem_keysFor htext hkey with h | h | h
    · exact absurd h (by decide)
    · exact absurd h (by decide)
    · exact h.2 (by decide)
  fits ks hks := by
    obtain ⟨rest, hrest⟩ := hks
    have h2 : 2 ∉ rest := by
      intro hmem
      have hkey : 2 ∈ keysFor layout text := hrest ▸ List.mem_append_right _ hmem
      rcases mem_keysFor htext hkey with h | h | h
      · exact absurd h (by decide)
      · exact absurd h (by decide)
      · exact h.2 (by decide)
    have hheld : Draft.held ks ≤ (Draft.typed false (ks ++ rest)).strokes.length := by
      rw [Draft.typed, List.foldl_append]
      exact length_le_foldl_press h2
    rw [hrest, typed_keysFor false htext, List.length_map] at hheld
    exact hheld.trans_lt hlen

/-- **It is typed**, whatever shift is pending. -/
theorem text_ofText (htext : ∀ c ∈ text, c ∈ typable layout) (hlen : text.length < commandSize)
    (beyond : Byte → Byte) (shift : Bool) :
    (TypedLine.ofText htext hlen).text layout beyond shift = text := by
  have hmap : (text.map (strokeOf layout)).map (fun p => inputChar layout beyond p.1 p.2) =
      text := by
    rw [List.map_map]
    refine (List.map_congr_left fun c hc => ?_).trans (List.map_id text)
    exact (strokeOf_spec beyond (htext c hc)).2.2
  rw [TypedLine.text, show (TypedLine.ofText htext hlen).keys = keysFor layout text from rfl,
    typed_keysFor shift htext, hmap]
  exact cstr_eq_self_iff.mpr fun h0 => ne_zero_of_typable (htext 0 h0) rfl

/-! ## Any line -/

/-- **A line that is read is one of keystrokes that fit**, up to Enter — induction on the keys. -/
theorem strokes_of_readLine {c c' : CommandLine} (h : Refines layout beyond c d)
    (hread : readLine layout beyond keys c = some c') : ∃ ks, 4 ∉ ks ∧ ks ++ [4] <+: keys ∧
      (ks.foldl Draft.press d).strokes.length < commandSize ∧
      cstr c'.buffer = cstr ((ks.foldl Draft.press d).strokes.map fun p =>
        inputChar layout beyond p.1 p.2) := by
  induction keys generalizing c d with
  | nil => cases hread
  | cons key keys ih =>
    have hin : ∃ r, c.terminalInput layout beyond key = some r := by
      obtain ⟨r, hr, -⟩ := Option.bind_eq_some_iff.mp hread
      exact ⟨r, hr⟩
    by_cases h4 : key = 4
    · subst h4
      have hroom : c.bufferIndex < commandSize := by
        by_contra hfull
        obtain ⟨r, hr⟩ := hin
        rw [terminalInput, if_neg (by decide), if_pos rfl, store, if_neg hfull] at hr
        cases hr
      obtain ⟨c'', hread', -, htext⟩ := readLine_enter layout beyond keys hroom
      obtain rfl := Option.some.inj (hread.symm.trans hread')
      refine ⟨[], List.not_mem_nil, ?_, h.index ▸ hroom, htext.trans (congrArg cstr h.text)⟩
      exact (List.prefix_cons_inj 4).mpr List.nil_prefix
    · have hroom : Stored key → c.bufferIndex < commandSize := by
        intro hstored
        by_contra hfull
        obtain ⟨r, hr⟩ := hin
        simp only [Stored, not_or] at hstored
        obtain ⟨h0, h1, h2, h5, h6, h7⟩ := hstored
        rw [terminalInput, if_neg h0, if_neg h4, if_neg h2, if_neg h1, if_neg h5,
          if_neg (not_or.mpr ⟨h6, h7⟩)] at hr
        dsimp only at hr
        rw [store, if_neg hfull] at hr
        cases hr
      obtain ⟨c₁, hpress, hrefines⟩ := refines_press h h4 hroom
      rw [readLine, hpress] at hread
      obtain ⟨ks, hnot, hks, hfits, htext⟩ := ih hrefines hread
      refine ⟨key :: ks, ?_, (List.prefix_cons_inj key).mpr hks, hfits, htext⟩
      exact fun hmem => (List.mem_cons.mp hmem).elim (fun heq => h4 heq.symm) hnot

/-- What is typed has characters of the layout only. -/
theorem typable_strokes (hkeys : ∀ key ∈ keys, key ∈ scancodeToAscii) (hc : c ∈
    cstr ((Draft.typed shift keys).strokes.map fun p => inputChar layout beyond p.1 p.2)) :
    c ∈ typable layout := by
  have hne : c ≠ 0 := fun h0 => zero_notMem_cstr _ (h0 ▸ hc)
  obtain ⟨p, hp, rfl⟩ := List.mem_map.mp ((List.takeWhile_prefix _).subset hc)
  obtain ⟨hkey, htyped⟩ := (Draft.mem_foldl_press hp).resolve_left List.not_mem_nil
  have hlt := lt_of_typed_mem (typed_mem (hkeys _ hkey) htyped)
  exact (inputChar_typable hlt).resolve_left hne

/-! ## From scan codes to a command -/

/-- The scan code of a key. -/
def scancodeOf (key : Byte) : Byte := UInt8.ofNat (scancodeToAscii.idxOf key)

/-- A key of the table is what its scan code stands for. -/
theorem scancodeOf_spec (far : Byte → Byte) (hkey : key ∈ scancodeToAscii) :
    scancodeOf key < 0x80 ∧ Ps2.lookup far (scancodeOf key) = key := by
  have hindex : scancodeToAscii.idxOf key < scancodeToAscii.length :=
    List.idxOf_lt_length_iff.mpr hkey
  have hlt : scancodeToAscii.idxOf key < 256 := by
    rw [length_scancodeToAscii] at hindex
    omega
  have hnat : (scancodeOf key).toNat = scancodeToAscii.idxOf key := by
    rw [scancodeOf, UInt8.toNat_ofNat']
    exact Nat.mod_eq_of_lt hlt
  refine ⟨Ps2.lt_length_iff.mp (hnat ▸ hindex), ?_⟩
  rw [Ps2.lookup, hnat, if_pos hindex, List.getD_eq_getElem _ _ hindex]
  exact List.getElem_idxOf hindex

/-- The keys of a stream of make codes are keys of the table. -/
theorem mem_of_readKeys {far : Byte → Byte} {as : List Arrival} (has : ∀ a ∈ as, a.code < 0x80)
    (hkey : key ∈ (Ps2.readKeys far as.length ⟨as, []⟩).1) : key ∈ scancodeToAscii := by
  rw [Ps2.readKeys_eq, List.take_length, Nat.sub_self, List.replicate_zero, List.append_nil]
    at hkey
  obtain ⟨a, ha, rfl⟩ := List.mem_map.mp hkey
  rw [Ps2.lookup_of_lt (has a ha),
    List.getD_eq_getElem _ _ (Ps2.lt_length_iff.mpr (has a ha))]
  exact List.getElem_mem _

/-- **Which commands can be typed** in a layout, on a keyboard that sends make codes, whatever lies
in the buffer and whatever shift is pending: the texts of up to 255 characters of the layout, and
no other. -/
theorem command_typed_iff (layout : KeyboardLayout) (beyond far : Byte → Byte) (c : CommandLine)
    (text : List Byte) :
    (∃ as : List Arrival, (∀ a ∈ as, a.code < 0x80) ∧ ∃ c',
        readLine layout beyond (Ps2.readKeys far as.length ⟨as, []⟩).1 c.start = some c' ∧
          cstr c'.buffer = text) ↔
      text.length < commandSize ∧ ∀ b ∈ text, b ∈ typable layout := by
  constructor
  · rintro ⟨as, has, c', hread, rfl⟩
    obtain ⟨ks, -, hks, hfits, htext⟩ := strokes_of_readLine (refines_start c) hread
    rw [htext]
    constructor
    · refine ((List.takeWhile_prefix _).length_le).trans_lt ?_
      rwa [List.length_map]
    · refine fun b hb => typable_strokes (fun key hkey => ?_) hb
      exact mem_of_readKeys has (hks.subset (List.mem_append_left _ hkey))
  · rintro ⟨hlen, htext⟩
    let l := TypedLine.ofText htext hlen
    obtain ⟨c', hread, -, heq⟩ := readLine_typed layout beyond l c []
    have hkeys : ∀ key ∈ l.keys ++ [4], key ∈ scancodeToAscii := by
      intro key hkey
      rcases List.mem_append.mp hkey with hkey | hkey
      · exact l.ps2 key hkey
      · rw [List.mem_singleton.mp hkey]
        decide +kernel
    refine ⟨(l.keys ++ [4]).map fun key => Ps2.Arrival.now (scancodeOf key), ?_, c', ?_,
      heq.trans (text_ofText htext hlen beyond c.shift)⟩
    · intro a ha
      obtain ⟨key, hkey, rfl⟩ := List.mem_map.mp ha
      exact (scancodeOf_spec far (hkeys key hkey)).1
    · have hlookup : (l.keys ++ [4]).map
          ((fun a : Arrival => Ps2.lookup far a.code) ∘ fun key =>
            Ps2.Arrival.now (scancodeOf key)) = l.keys ++ [4] := by
        refine (List.map_congr_left (g := id) fun key hkey => ?_).trans (List.map_id _)
        rw [Function.comp_apply, Ps2.Arrival.now, (scancodeOf_spec far (hkeys key hkey)).2, id]
      rw [Ps2.readKeys_eq, List.take_length, Nat.sub_self, List.replicate_zero, List.append_nil,
        List.map_map, hlookup]
      exact hread

end CommandLine

end HuskyKernel
