import HuskyKernel.BuiltIn.Frame
import HuskyKernel.Kernel.CommandLine
import HuskyKernel.System.Words

/-!
# Kernel/LineEditors — the two line editors

`msh_read_line` and `terminal_input` edit a line each in their own way.  A key leaves both with the
same line and the same pending shift exactly if it is one they handle alike (`press_agree_iff`).  So
over a whole line `msh_read_line` goes on at every point as the prompt does, and at Enter returns
the C string the prompt has, exactly if all its keys are, and the heap has room for the string
(`editors_agree_iff`).
-/

namespace HuskyKernel

open Wp Msh

/-- The character `msh_read_line` takes for a key. -/
def mshChar (shift : Bool) (key : Byte) : Byte := if shift then normalToShifted2 key else key

/-- One key of `msh_read_line`: the line it holds, and the pending shift. -/
def mshPress (l : List Byte × Bool) (key : Byte) : List Byte × Bool :=
  if key = 0 then l
  else if key = 2 then (l.1.dropLast, l.2)
  else if key = 6 ∨ key = 7 then (l.1, true)
  else (l.1 ++ [mshChar l.2 key], false)

/-- What the prompt holds, in the US layout. -/
def Draft.content (beyond : Byte → Byte) (d : Draft) : List Byte × Bool :=
  (d.strokes.map fun p => CommandLine.inputChar .us beyond p.1 p.2, d.shift)

/-- A key both editors handle alike: not Escape and not Ctrl; under a shift, no Backspace and none
of the characters `normal_to_shifted2` lacks; without one, none that the layout lacks. -/
def Alike (shift : Bool) (key : Byte) : Prop :=
  key ≠ 1 ∧ key ≠ 5 ∧ if shift = true then key ≠ 2 ∧ key ≠ chr '`' ∧ key ≠ chr ' '
    else key ≠ 8 ∧ key ≠ chr '*'

instance {shift : Bool} {key : Byte} : Decidable (Alike shift key) :=
  inferInstanceAs (Decidable (_ ∧ _))

variable {beyond : Byte → Byte} {d : Draft} {key : Byte} {keys line : List Byte} {shift : Bool}

/-! ## One key -/

theorem mshPress_of_typed {l : List Byte × Bool} (h : Draft.Typed key) :
    mshPress l key = (l.1 ++ [mshChar l.2 key], false) := by
  simp only [Draft.Typed, List.mem_cons, List.not_mem_nil, or_false, not_or] at h
  obtain ⟨h0, -, h2, -, -, h6, h7⟩ := h
  rw [mshPress, if_neg h0, if_neg h2, if_neg (not_or.mpr ⟨h6, h7⟩)]

/-- A round of the loop of `msh_read_line`. -/
theorem readLineLoop_cons (shift : Bool) (echo : List Byte) (h4 : key ≠ 4)
    (hline : line.length < 255) :
    ∃ echo', ∀ keys, readLineLoop line shift echo (key :: keys)
      = readLineLoop (mshPress (line, shift) key).1 (mshPress (line, shift) key).2 echo' keys := by
  simp only [readLineLoop, if_pos hline, mshPress]
  by_cases h0 : key = 0
  · simp only [if_pos h0]
    exact ⟨echo, fun _ => rfl⟩
  simp only [if_neg h0, if_neg h4]
  by_cases h2 : key = 2
  · simp only [if_pos h2]
    by_cases hpos : line.length > 0
    · simp only [if_pos hpos]
      exact ⟨_, fun _ => rfl⟩
    · simp only [if_neg hpos]
      rw [List.length_eq_zero_iff.mp (Nat.eq_zero_of_not_pos hpos)]
      exact ⟨echo, fun _ => rfl⟩
  simp only [if_neg h2]
  by_cases h67 : key = 6 ∨ key = 7
  · simp only [if_pos h67]
    exact ⟨echo, fun _ => rfl⟩
  · simp only [if_neg h67]
    exact ⟨_, fun _ => rfl⟩

/-- Enter gets the line. -/
theorem readLineLoop_enter (shift : Bool) (echo rest : List Byte) (hline : line.length < 255) :
    readLineLoop line shift echo (4 :: rest) = some (line, echo, rest) := by
  rw [readLineLoop, if_pos hline, if_neg (by decide), if_pos rfl]

theorem map_fst_readLineLoop (line : List Byte) (shift : Bool) (echo : List Byte) :
    (readLineLoop line shift echo [4]).map Prod.fst = some line := by
  by_cases hlen : line.length < 255
  · rw [readLineLoop_enter shift echo [] hlen]
    rfl
  · rw [readLineLoop, if_neg hlen]
    rfl

/-- **What the loop does from here on tells the line and the pending shift**: a letter typed shows
the shift, and Enter the line. -/
theorem eq_of_readLineLoop_eq {l l' : List Byte × Bool} {echo echo' : List Byte}
    (hlen : l'.1.length < 255)
    (h : ∀ more, readLineLoop l.1 l.2 echo more = readLineLoop l'.1 l'.2 echo' more) : l = l' := by
  obtain ⟨line, shift⟩ := l
  obtain ⟨line', shift'⟩ := l'
  have hline : line = line' := by
    have hmap := congrArg (Option.map Prod.fst) (h [4])
    rw [map_fst_readLineLoop, map_fst_readLineLoop] at hmap
    exact Option.some.inj hmap
  subst hline
  obtain ⟨e, he⟩ := readLineLoop_cons shift echo (show chr 'a' ≠ 4 by decide) hlen
  obtain ⟨e', he'⟩ := readLineLoop_cons shift' echo' (show chr 'a' ≠ 4 by decide) hlen
  have hmap := congrArg (Option.map Prod.fst) (h [chr 'a', 4])
  rw [he, he', map_fst_readLineLoop, map_fst_readLineLoop,
    mshPress_of_typed (by decide), mshPress_of_typed (by decide)] at hmap
  have htell : ∀ a b : Bool, mshChar a (chr 'a') = mshChar b (chr 'a') → a = b := by decide
  obtain rfl : shift = shift' :=
    htell _ _ (List.singleton_inj.mp (List.append_cancel_left (Option.some.inj hmap)))
  rfl

/-- The characters the editors take for a keystroke of the table. -/
theorem mshChar_eq_iff (beyond : Byte → Byte) (hmem : key ∈ 8 :: chr '*' :: layoutKeys) :
    mshChar shift key = CommandLine.inputChar .us beyond shift key ↔ Alike shift key := by
  have htable : ∀ key ∈ 8 :: chr '*' :: layoutKeys, (mshChar shift key
      = layoutEntry ((if shift then shiftedLayout else usAsciiToLayout) .us) key ↔
        Alike shift key) := by
    cases shift <;> decide +kernel
  rw [CommandLine.inputChar, if_pos (CommandLine.lt_of_typed_mem hmem)]
  exact htable key hmem

/-- **A key leaves both editors alike exactly if it is `Alike`.** -/
theorem press_agree_iff (beyond : Byte → Byte) (d : Draft) (hmem : key ∈ scancodeToAscii)
    (h4 : key ≠ 4) :
    mshPress (d.content beyond) key = (d.press key).content beyond ↔ Alike d.shift key := by
  by_cases htyped : Draft.Typed key
  · rw [← mshChar_eq_iff beyond (CommandLine.typed_mem hmem htyped),
      Draft.press_of_typed htyped, mshPress_of_typed htyped, Draft.content, Draft.content,
      List.map_append, Prod.mk.injEq, and_iff_left rfl, List.append_cancel_left_eq,
      List.map_singleton, List.singleton_inj]
  have hlonger (l : List Byte) (b : Byte) (s : Bool) : (l ++ [b], s) ≠ (l, s) := fun h =>
    absurd (congrArg (List.length ∘ Prod.fst) h) (by simp)
  rw [Draft.Typed, not_not] at htyped
  simp only [List.mem_cons, List.not_mem_nil, or_false] at htyped
  obtain rfl | rfl | rfl | rfl | rfl | rfl | rfl := htyped
  · exact iff_of_true rfl (by cases d.shift <;> decide)
  · exact iff_of_false (hlonger _ _ _) (by cases d.shift <;> decide)
  · have htwo : mshPress (d.content beyond) 2 = ((d.content beyond).1.dropLast, d.shift) := rfl
    have hdrop : (d.press 2).content beyond = ((d.content beyond).1.dropLast, false) := by
      rw [Draft.content, Draft.content, ← List.map_dropLast]
      rfl
    rw [htwo, hdrop, Prod.mk.injEq, and_iff_right rfl]
    cases d.shift <;> decide
  · exact absurd rfl h4
  · exact iff_of_false (hlonger _ _ _) (by cases d.shift <;> decide)
  · exact iff_of_true rfl (by cases d.shift <;> decide)
  · exact iff_of_true rfl (by cases d.shift <;> decide)

/-! ## A line -/

/-- The loop of `msh_read_line` presses one key after another, while it has room — induction on
the keys. -/
theorem readLineLoop_append (keys : List Byte) {l : List Byte × Bool} (h4 : 4 ∉ keys)
    (hroom : ∀ ks, ks <+: keys → (ks.foldl mshPress l).1.length < 255) (echo : List Byte) :
    ∃ echo', ∀ more, readLineLoop l.1 l.2 echo (keys ++ more)
      = readLineLoop (keys.foldl mshPress l).1 (keys.foldl mshPress l).2 echo' more := by
  induction keys generalizing l echo with
  | nil => exact ⟨echo, fun _ => rfl⟩
  | cons key keys ih =>
    obtain ⟨hne, hnot⟩ := not_or.mp (mt List.mem_cons.mpr h4)
    obtain ⟨echo₁, hfirst⟩ := readLineLoop_cons l.2 echo (Ne.symm hne) (hroom [] List.nil_prefix)
    obtain ⟨echo', hrest⟩ := ih hnot
      (fun ks hks => hroom (key :: ks) ((List.prefix_cons_inj key).mpr hks)) echo₁
    exact ⟨echo', fun more => (hfirst (keys ++ more)).trans (hrest more)⟩

/-- Both editors hold the same after every part of a line exactly if every key of it is `Alike` —
induction on the keys. -/
theorem foldl_agree_iff (hmem : ∀ key ∈ keys, key ∈ scancodeToAscii) (h4 : 4 ∉ keys) (d : Draft) :
    (∀ ks, ks <+: keys →
        ks.foldl mshPress (d.content beyond) = (ks.foldl Draft.press d).content beyond) ↔
      ∀ ks key, ks ++ [key] <+: keys → Alike (ks.foldl Draft.press d).shift key := by
  induction keys generalizing d with
  | nil =>
    refine iff_of_true (fun ks hks => ?_) fun ks key hpre => ?_
    · rw [List.prefix_nil.mp hks]
      rfl
    · exact absurd (List.prefix_nil.mp hpre) (by simp)
  | cons key keys ih =>
    obtain ⟨hne, hnot⟩ := not_or.mp (mt List.mem_cons.mpr h4)
    have hfirst := press_agree_iff beyond d (hmem key List.mem_cons_self) (Ne.symm hne)
    have hrest := ih (fun k hk => hmem k (List.mem_cons_of_mem _ hk)) hnot (d.press key)
    rw [Trace.forall_prefix_cons, List.foldl_nil, ← hfirst]
    constructor
    · intro hall
      have hkey : mshPress (d.content beyond) key = (d.press key).content beyond :=
        hall [key] (List.prefix_append [key] keys)
      refine ⟨hkey, hrest.mp fun ks hks => ?_⟩
      have hks' := hall (key :: ks) ((List.prefix_cons_inj key).mpr hks)
      rwa [List.foldl_cons, List.foldl_cons, hkey] at hks'
    · rintro ⟨hkey, hall⟩ ks hks
      rcases List.prefix_cons_iff.mp hks with rfl | ⟨ks', rfl, hks'⟩
      · rfl
      · rw [List.foldl_cons, List.foldl_cons, hkey]
        exact hrest.mpr hall ks' hks'

/-- **A copy of the line on the heap** is the string it is a copy of, and there is one exactly if
there is room for it. -/
theorem wp_strdupLine (h : Host) (s : Machine) (hline : line.length < 256)
    (hi : s.heapIndex ≤ heapSize) :
    wp (strdupLine h line) (fun p t => t.keys = s.keys ∧
        (p ≠ 0 ↔ s.heapIndex.toNat + (cstr line).length < heapSize.toNat) ∧
        (p ≠ 0 → t.mem.cstr? p = some (cstr line)))
      (fun _ _ => False) s := by
  have hshort : (cstr line).length < 256 := (List.takeWhile_prefix _).length_le.trans_lt hline
  have hlen : (cstr line).length < Mem.span := hshort.trans (by decide)
  have hroom : (HuskyKernel.malloc h.heap (BitVec.ofNat 32 (cstr line).length + 1)
      s.heapIndex).1 ≠ 0 ↔ s.heapIndex.toNat + (cstr line).length < heapSize.toNat := by
    have hsize : (BitVec.ofNat 32 (cstr line).length + 1 : Word).toNat =
        (cstr line).length + 1 := by
      have hone : (1 : Word).toNat = 1 := rfl
      rw [BitVec.toNat_add, BitVec.toNat_ofNat, hone]
      omega
    have hindex : s.heapIndex.toNat ≤ 0x100000 := hi
    rw [Heap.malloc_ne_zero_iff hi (by omega), hsize]
    exact Nat.succ_le_iff
  rw [strdupLine, wp_bind, wp_malloc]
  simp only [wp_ite, wp_bind, wp_store, wp_pure]
  refine ⟨fun _ => ?_, fun hp => ?_⟩
  · exact ⟨trivial, hroom, fun _ => Mem.cstr?_store _ _ (zero_notMem_cstr line) hlen⟩
  · exact ⟨trivial, hroom, fun hne => absurd hne hp⟩

/-- **What `msh_read_line` returns**: a copy of the line of its loop, if there is room for one, and
the keys that are left. -/
theorem wp_mshReadLine (h : Host) {s : Machine} {echo rest : List Byte}
    (hloop : readLineLoop [] false [] s.keys = some (line, echo, rest))
    (hline : line.length < 256) (hi : s.heapIndex ≤ heapSize) :
    wp (mshReadLine h) (fun p t => t.keys = rest ∧
        (p ≠ 0 ↔ s.heapIndex.toNat + (cstr line).length < heapSize.toNat) ∧
        (p ≠ 0 → t.mem.cstr? p = some (cstr line)))
      (fun _ _ => False) s := by
  rw [mshReadLine, wp_bind, wp_get]
  simp only [hloop, wp_bind, wp_set]
  exact wp_strdupLine h _ hline hi

/-- All keys of a line are handled alike, each under the shift the keys before it leave. -/
def AllAlike (keys : List Byte) : Prop :=
  ∀ ks key, ks ++ [key] <+: keys → Alike (Draft.typed false ks).shift key

/-- After `ks` the shell holds what the draft does. -/
def HoldSame (beyond : Byte → Byte) (ks : List Byte) : Prop :=
  ks.foldl mshPress ([], false) = (Draft.typed false ks).content beyond

/-- That is so at every point of a line exactly if its keys are handled alike. -/
theorem allAlike_iff (beyond : Byte → Byte) (l : CommandLine.TypedLine 255) :
    (∀ ks, ks <+: l.keys → HoldSame beyond ks) ↔ AllAlike l.keys :=
  foldl_agree_iff l.ps2 l.noEnter ⟨false, []⟩

/-- The prompt always does. -/
theorem prompt_content (beyond : Byte → Byte) (c : CommandLine) (hc : c.shift = false)
    (l : CommandLine.TypedLine 255) {ks : List Byte} (hks : ks <+: l.keys) :
    ∃ c', Trace.run (CommandLine.goOn .us beyond) c.start ks = some c' ∧
      (c'.buffer.take c'.bufferIndex, c'.shift) = (Draft.typed false ks).content beyond := by
  have hstart : CommandLine.Refines .us beyond c.start ⟨false, []⟩ :=
    hc ▸ CommandLine.refines_start c
  obtain ⟨c', hc', href, -⟩ := CommandLine.run_of_refines hstart
    (fun hmem => l.noEnter (hks.subset hmem)) fun ks' hks' =>
      (l.fits ks' (hks'.trans hks)).trans (by decide)
  exact ⟨c', hc', Prod.ext href.text href.shift⟩

/-- After the keys `ks` of a line `msh_read_line` goes on with the line and the pending shift that
the prompt has. -/
def InStep (beyond : Byte → Byte) (c : CommandLine) (ks : List Byte) : Prop :=
  ∃ c' echo, Trace.run (CommandLine.goOn .us beyond) c.start ks = some c' ∧
    ∀ more, readLineLoop [] false [] (ks ++ more)
      = readLineLoop (c'.buffer.take c'.bufferIndex) c'.shift echo more

/-- The prompt's line has room for a character. -/
theorem length_content (beyond : Byte → Byte) (l : CommandLine.TypedLine 255) {ks : List Byte}
    (hks : ks <+: l.keys) : ((Draft.typed false ks).content beyond).1.length < 255 := by
  rw [Draft.content, List.length_map]
  exact l.fits ks hks

/-- `msh_read_line` goes on with what it holds, as long as that is what the prompt holds. -/
theorem readLineLoop_of_holdSame (beyond : Byte → Byte) (l : CommandLine.TypedLine 255)
    {ks : List Byte} (hks : ks <+: l.keys) (hall : ∀ ks', ks' <+: ks → HoldSame beyond ks') :
    ∃ echo, ∀ more, readLineLoop [] false [] (ks ++ more) = readLineLoop
      (ks.foldl mshPress ([], false)).1 (ks.foldl mshPress ([], false)).2 echo more :=
  readLineLoop_append ks (fun h4 => l.noEnter (hks.subset h4))
    (fun ks' hks' => (hall ks' hks').symm ▸ length_content beyond l (hks'.trans hks)) []

/-- **One key**: if both hold the same before it and are in step behind it, both hold the same. -/
theorem holdSame_concat (beyond : Byte → Byte) (c : CommandLine) (hc : c.shift = false)
    (l : CommandLine.TypedLine 255) {ks : List Byte} (hks : ks ++ [key] <+: l.keys)
    (hall : ∀ ks', ks' <+: ks → HoldSame beyond ks') (hstep : InStep beyond c (ks ++ [key])) :
    HoldSame beyond (ks ++ [key]) := by
  have hbefore : ks <+: l.keys := (List.prefix_append ks [key]).trans hks
  have hne : key ≠ 4 := fun h4 =>
    l.noEnter (h4 ▸ hks.subset (List.mem_append_right _ (List.mem_singleton_self key)))
  have hroom : (ks.foldl mshPress ([], false)).1.length < 255 :=
    (hall ks (List.prefix_refl _)).symm ▸ length_content beyond l hbefore
  obtain ⟨echo, hecho⟩ := readLineLoop_of_holdSame beyond l hbefore hall
  obtain ⟨echo₁, hkey⟩ := readLineLoop_cons (ks.foldl mshPress ([], false)).2 echo hne hroom
  obtain ⟨c', hc', hcontent⟩ := prompt_content beyond c hc l hks
  obtain ⟨d, echo', hd, hmore⟩ := hstep
  obtain rfl := Option.some.inj (hd.symm.trans hc')
  have hsame (more : List Byte) :
      readLineLoop (mshPress (ks.foldl mshPress ([], false)) key).1
          (mshPress (ks.foldl mshPress ([], false)) key).2 echo₁ more =
        readLineLoop (d.buffer.take d.bufferIndex, d.shift).1
          (d.buffer.take d.bufferIndex, d.shift).2 echo' more := by
    rw [← hmore more, List.append_assoc, List.singleton_append, hecho (key :: more)]
    exact (hkey more).symm
  rw [HoldSame, List.foldl_append, List.foldl_cons, List.foldl_nil, ← hcontent]
  exact eq_of_readLineLoop_eq (hcontent ▸ length_content beyond l hks) hsame

/-- At every point of a line both editors hold the same exactly if they are in step there —
induction on the line, as `msh_read_line` stops at a line that is full. -/
theorem inStep_iff (beyond : Byte → Byte) (c : CommandLine) (hc : c.shift = false)
    (l : CommandLine.TypedLine 255) : (∀ ks, ks <+: l.keys → InStep beyond c ks) ↔
      ∀ ks, ks <+: l.keys → HoldSame beyond ks := by
  constructor
  · intro hstep
    have hupTo (ks : List Byte) (hks : ks <+: l.keys) (ks' : List Byte) (hks' : ks' <+: ks) :
        HoldSame beyond ks' := by
      induction ks using List.reverseRecOn generalizing ks' with
      | nil =>
        rw [List.prefix_nil.mp hks']
        rfl
      | append_singleton ks key ih =>
        have hbefore : ks <+: l.keys := (List.prefix_append ks [key]).trans hks
        rcases List.prefix_concat_iff.mp hks' with rfl | hks'
        · exact holdSame_concat beyond c hc l hks (ih hbefore) (hstep _ hks)
        · exact ih hbefore ks' hks'
    exact fun ks hks => hupTo ks hks ks (List.prefix_refl _)
  · intro hsame ks hks
    obtain ⟨c', hc', hcontent⟩ := prompt_content beyond c hc l hks
    obtain ⟨echo, hecho⟩ := readLineLoop_of_holdSame beyond l hks
      fun ks' hks' => hsame ks' (hks'.trans hks)
    have hfold : ks.foldl mshPress ([], false) = _ := hsame ks hks
    refine ⟨c', echo, hc', fun more => ?_⟩
    rw [hecho more, hfold, ← hcontent]

/-- The string the prompt has at the end of the line. -/
def promptText (beyond : Byte → Byte) (l : CommandLine.TypedLine 255) : List Byte :=
  cstr ((Draft.typed false l.keys).content beyond).1

/-- `msh_read_line` is in step with the prompt at every point of the line, and at Enter returns a
copy of the string in the prompt's buffer. -/
structure EditorsAgree (h : Host) (beyond : Byte → Byte) (c : CommandLine)
    (l : CommandLine.TypedLine 255) (rest : List Byte) (s : Machine) : Prop where
  inStep : ∀ ks, ks <+: l.keys → InStep beyond c ks
  returns : ∃ c', CommandLine.readLine .us beyond (l.keys ++ 4 :: rest) c.start = some c' ∧
    wp (mshReadLine h) (fun p t => t.keys = rest ∧ p ≠ 0 ∧ t.mem.cstr? p = some (cstr c'.buffer))
      (fun _ _ => False) s

/-- What both editors make of a line in which they are in step: the same string, but `msh_read_line`
has none if the heap has no room for it. -/
theorem returns_of_inStep (h : Host) (beyond : Byte → Byte) (c : CommandLine) (hc : c.shift = false)
    (l : CommandLine.TypedLine 255) (rest : List Byte) {s : Machine}
    (hs : s.keys = l.keys ++ 4 :: rest) (hi : s.heapIndex ≤ heapSize)
    (hstep : InStep beyond c l.keys) :
    ∃ c', CommandLine.readLine .us beyond (l.keys ++ 4 :: rest) c.start = some c' ∧
      wp (mshReadLine h) (fun p t => t.keys = rest ∧
        (p ≠ 0 ↔ s.heapIndex.toNat + (promptText beyond l).length < heapSize.toNat) ∧
        (p ≠ 0 → t.mem.cstr? p = some (cstr c'.buffer))) (fun _ _ => False) s := by
  have hsize : 255 ≤ commandSize := by decide
  obtain ⟨c', hread, -, htext⟩ := CommandLine.readLine_typed .us beyond (l.widen hsize) c rest
  rw [CommandLine.TypedLine.keys_widen, hc] at htext
  obtain ⟨d, hd, hcontent⟩ := prompt_content beyond c hc l (List.prefix_refl _)
  obtain ⟨d', echo, hd', hloop⟩ := hstep
  obtain rfl := Option.some.inj (hd'.symm.trans hd)
  have hline := congrArg Prod.fst hcontent
  dsimp only at hline
  have hlen : (d'.buffer.take d'.bufferIndex).length < 255 := by
    rw [hline, Draft.content, List.length_map]
    exact l.fits _ (List.prefix_refl _)
  have henter := hloop (4 :: rest)
  rw [readLineLoop_enter _ _ _ hlen, ← hs] at henter
  have hcopy := wp_mshReadLine h henter (hlen.trans (by decide)) hi
  rw [hline] at hcopy
  refine ⟨c', hread, ?_⟩
  rw [htext]
  exact hcopy

/-- **The editors agree exactly if** all keys of the line are handled alike, and the heap has room
for the string they make, with its NUL. -/
theorem editors_agree_iff (h : Host) (beyond : Byte → Byte) (c : CommandLine) (hc : c.shift = false)
    (l : CommandLine.TypedLine 255) (rest : List Byte) (s : Machine)
    (hs : s.keys = l.keys ++ 4 :: rest) (hi : s.heapIndex ≤ heapSize) :
    EditorsAgree h beyond c l rest s ↔ AllAlike l.keys ∧
      s.heapIndex.toNat + (promptText beyond l).length < heapSize.toNat := by
  have hsteps := (inStep_iff beyond c hc l).trans (allAlike_iff beyond l)
  constructor
  · rintro ⟨hstep, c', hread, hreturns⟩
    obtain ⟨c'', hread', hcopy⟩ := returns_of_inStep h beyond c hc l rest hs hi
      (hstep _ (List.prefix_refl _))
    obtain ⟨p, t, hrun, -, hp, -⟩ := wp_returns.mp hreturns
    exact ⟨hsteps.mp hstep, ((wp_of_ok hrun).mp hcopy).2.1.mp hp⟩
  · rintro ⟨halike, hroom⟩
    have hstep := hsteps.mpr halike
    obtain ⟨c', hread, hcopy⟩ := returns_of_inStep h beyond c hc l rest hs hi
      (hstep _ (List.prefix_refl _))
    refine ⟨hstep, c', hread, wp_mono hcopy (fun p t ⟨hkeys, hp, hstring⟩ => ?_) fun _ _ => id⟩
    exact ⟨hkeys, hp.mpr hroom, hstring (hp.mpr hroom)⟩

/-- Shift, `h`, `i`, `j`, Backspace. -/
def hiLine : CommandLine.TypedLine 255 :=
  .ofShort [6, chr 'h', chr 'i', chr 'j', 2] (by decide +kernel) (by decide) (by decide)

/-- `Hi`, with a letter taken back, and a heap with room for three bytes. -/
theorem editors_agree_hi : EditorsAgree Host.bare (fun _ => 0) CommandLine.blankLine hiLine
    [chr 'x'] { Machine.boot with keys := hiLine.keys ++ [4, chr 'x'], heapIndex := 0xFFFFD } := by
  have halike : AllAlike hiLine.keys := by
    simp only [AllAlike, hiLine, CommandLine.TypedLine.ofShort, Trace.forall_prefix_cons]
    refine ⟨by decide, by decide, by decide, by decide, by decide, fun ks key hpre => ?_⟩
    exact absurd (List.prefix_nil.mp hpre) (by simp)
  exact (editors_agree_iff Host.bare (fun _ => 0) CommandLine.blankLine rfl hiLine [chr 'x'] _ rfl
    (by decide)).mpr ⟨halike, by decide +kernel⟩

/-- Escape alone. -/
def escapeLine : CommandLine.TypedLine 255 :=
  .ofShort [1] (by decide +kernel) (by decide) (by decide)

/-- `msh_read_line` takes Escape for a character, the prompt does not. -/
theorem not_editors_agree_escape : ¬ ∀ (h : Host) (beyond : Byte → Byte) (c : CommandLine)
    (l : CommandLine.TypedLine 255) (s : Machine), c.shift = false → s.heapIndex = 0 →
    s.keys = l.keys ++ [4] →
    ∃ c', CommandLine.readLine .us beyond (l.keys ++ [4]) c.start = some c' ∧
      wp (mshReadLine h) (fun p t => p ≠ 0 → t.mem.cstr? p = some (cstr c'.buffer))
        (fun _ _ => False) s := by
  intro hall
  obtain ⟨c', hread, hreturns⟩ := hall Host.bare (fun _ => 0) CommandLine.blankLine escapeLine
    { Machine.boot with keys := [1, 4] } rfl rfl rfl
  obtain ⟨p, t, hrun, hp⟩ := wp_returns.mp hreturns
  have hloop : readLineLoop [] false [] [1, 4] = some ([1], [1], []) := by decide +kernel
  have hcopy := (wp_of_ok hrun).mp (wp_mshReadLine Host.bare
    (s := { Machine.boot with keys := [1, 4] }) hloop (by decide) (by decide))
  obtain ⟨-, hroom, hstring⟩ := hcopy
  have hne : p ≠ 0 := hroom.mpr (by decide +kernel)
  obtain ⟨c'', hread', -, htext⟩ := CommandLine.readLine_typed .us (fun _ => 0)
    (escapeLine.widen (by decide)) CommandLine.blankLine []
  obtain rfl := Option.some.inj (hread.symm.trans hread')
  have hsame : some [1] = some (cstr c'.buffer) := (hstring hne).symm.trans (hp hne)
  rw [htext] at hsame
  exact absurd hsame (by decide)

end HuskyKernel
