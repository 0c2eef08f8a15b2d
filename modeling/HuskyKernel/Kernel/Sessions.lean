import HuskyKernel.Kernel.Typing

/-!
# Kernel/Sessions — any number of sessions in the editor

The kernel as a machine that takes one `KernelEvent` at a time: a round of the prompt, or a key
while the editor is open.  Every kernel the prompt reaches is one the machine reaches
(`run_of_reachable`).  The text keeps clear of NULs exactly as long as no key without a character is
typed (`text_iff`), and the buffer is kept exactly as long as nothing is typed into its last byte
(`bounds_iff`).
-/

namespace HuskyKernel

/-- What happens next. -/
inductive KernelEvent
  | round (r : Round)
  | key (p : KeyPress)

namespace Kernel

variable (answer : Calls → List Byte → Bool)

/-- A round of `terminal_prompt` as far as it goes without a key in the editor. -/
def command (r : Round) (k : Kernel) : Option Kernel :=
  let k := { k with screen := k.screen ++ r.echo }
  match r.args with
  | [] => some k
  | name :: args =>
    if strcmp name (str "cl") = 0 then some (k.cl args)
    else if strcmp name (str "edit") = 0 then some k.openEditor
    else if strcmp name (str "run") = 0 then k.run answer
    else some { k with screen := k.screen ++ r.output }

/-- One event: the editor reads the keys while it is active, the prompt goes on when it is not. -/
def step (k : Kernel) : KernelEvent → Option Kernel
  | .round r => if k.editor.isActive then none else k.command answer r
  | .key p => if k.editor.isActive then p.handle answer k else none

variable {answer} {k k' k'' : Kernel}

/-! ## The rounds of the prompt -/

/-- The keys of a session are events. -/
theorem run_of_typeKeys {keys : List KeyPress} (h : typeKeys answer keys k = some k') :
    Trace.run (step answer) k (keys.map .key) = some k' := by
  induction keys generalizing k with
  | nil => exact h
  | cons p ps ih =>
    rw [typeKeys] at h
    split_ifs at h with hactive
    obtain ⟨k₁, hk₁, hps⟩ := Option.bind_eq_some_iff.mp h
    rw [List.map_cons, Trace.run, step, if_pos hactive, hk₁]
    exact ih hps

@[simp] theorem editor_write (s : List Byte) : (k.write s).editor = k.editor := rfl

@[simp] theorem editor_cl (args : List (List Byte)) : (k.cl args).editor = k.editor := by
  cases args with
  | nil => rfl
  | cons name args =>
    rw [cl]
    split <;> rfl

theorem editor_run (h : k.run answer = some k') : k'.editor = k.editor := by
  rw [run] at h
  split_ifs at h
  · exact editor_execute h
  · rw [← Option.some.inj h]
    rfl

/-- A round of the prompt is a command and, if that opens the editor, the keys typed there. -/
theorem prompt_cases {r : Round} (h : k.prompt answer r = some k') :
    (k.command answer r = some k' ∧ k'.editor = k.editor) ∨
      ∃ k₁, k.command answer r = some k₁ ∧ editLoop answer r.keys k₁ = some k' := by
  rw [prompt] at h
  rw [command]
  cases hargs : r.args with
  | nil =>
    rw [hargs] at h
    exact Or.inl ⟨h, by rw [← Option.some.inj h]⟩
  | cons name args =>
    simp only [hargs] at h ⊢
    split_ifs at h ⊢
    · exact Or.inl ⟨h, by rw [← Option.some.inj h, editor_cl]⟩
    · exact Or.inr ⟨_, rfl, h⟩
    · exact Or.inl ⟨h, by rw [editor_run h]⟩
    · exact Or.inl ⟨h, by rw [← Option.some.inj h]⟩

/-- **A round of the prompt is a run of events**, and comes back with the editor closed. -/
theorem run_of_prompt {r : Round} (hclosed : k.editor.isActive = false)
    (h : k.prompt answer r = some k') :
    k'.editor.isActive = false ∧ ∃ es, Trace.run (step answer) k es = some k' := by
  have hround : k.step answer (.round r) = k.command answer r :=
    if_neg (by rw [hclosed]; exact Bool.false_ne_true)
  rcases prompt_cases h with ⟨hcommand, heditor⟩ | ⟨k₁, hcommand, hloop⟩
  · refine ⟨by rw [heditor]; exact hclosed, [.round r], ?_⟩
    rw [Trace.run, hround, hcommand]
    rfl
  · obtain ⟨hkeys, hleft⟩ := Option.filter_eq_some_iff.mp hloop
    refine ⟨by simpa using hleft, .round r :: r.keys.map .key, ?_⟩
    rw [Trace.run, hround, hcommand]
    exact run_of_typeKeys hkeys

/-- **Whatever the prompt reaches, events reach.** -/
theorem run_of_reachable (h : Reachable answer k) :
    ∃ es, Trace.run (step answer) boot es = some k := by
  obtain ⟨l, hl⟩ := h
  refine (hl.keeps (P := fun k => k.editor.isActive = false ∧
    ∃ es, Trace.run (step answer) boot es = some k) ?_ ⟨rfl, [], rfl⟩).2
  rintro a b ⟨r, hr⟩ ⟨hclosed, es, hes⟩
  obtain ⟨hclosed', es', hes'⟩ := run_of_prompt hclosed hr
  exact ⟨hclosed', es ++ es', Trace.run_append hes hes'⟩

/-! ## What an event does to the text -/

/-- The effect of an event on the text. -/
def effectOf (k : Kernel) : KernelEvent → Effect
  | .round _ => .still
  | .key p => if k.editor.isActive then (p.point k).effect p.key p.beyond else .still

theorem editor_command {r : Round} (h : k.command answer r = some k') :
    k'.editor = { k.editor with isActive := k'.editor.isActive } := by
  rw [command] at h
  cases hargs : r.args with
  | nil =>
    rw [hargs] at h
    rw [← Option.some.inj h]
  | cons name args =>
    simp only [hargs] at h
    split_ifs at h
    · rw [← Option.some.inj h, editor_cl]
    · rw [← Option.some.inj h]
      rfl
    · rw [editor_run h]
    · rw [← Option.some.inj h]

/-- **What an event can do to the text.** -/
theorem editor_of_step {e : KernelEvent} (h : k.step answer e = some k') :
    ∃ ed, (k.effectOf e).apply k.editor = some ed ∧
      k'.editor = { ed with isActive := k'.editor.isActive } := by
  cases e with
  | round r =>
    rw [step] at h
    split_ifs at h
    exact ⟨_, rfl, editor_command h⟩
  | key p =>
    rw [step] at h
    split_ifs at h with hactive
    rw [effectOf, if_pos hactive]
    exact editor_of_handle h

/-- An event that changes the text returns, unless it leaves the buffer. -/
theorem step_of_effect (answer : Calls → List Byte → Bool) {e : KernelEvent} {ed : EditorState}
    (h : k.effectOf e ≠ .still)
    (hed : (k.effectOf e).apply k.editor = some ed) : ∃ k', k.step answer e = some k' := by
  cases e with
  | round r => exact absurd rfl h
  | key p =>
    rw [effectOf] at h hed
    split_ifs at h hed with hactive
    · rw [step, if_pos hactive]
      exact handle_of_effect answer h hed
    · exact absurd rfl h

end Kernel

/-! ## The text and the NULs behind it -/

/-- The text has no NUL and nothing but NULs behind it, so that the C string in the buffer is the
text. -/
structure EditorState.Clean (e : EditorState) : Prop where
  noNul : 0 ∉ e.text
  rest : ∀ b ∈ e.buffer.drop e.position, b = 0
  shown : cstr e.buffer = e.text

namespace EditorState

variable {e : EditorState}

theorem cstr_of_split (h0 : 0 ∉ e.text) (hrest : ∀ b ∈ e.buffer.drop e.position, b = 0) :
    cstr e.buffer = e.text := by
  have hsplit : e.buffer = e.text ++ e.buffer.drop e.position :=
    (List.take_append_drop _ _).symm
  rw [hsplit, cstr, List.takeWhile_append_of_pos fun b hb => ?_]
  · rw [List.takeWhile_eq_nil_iff.mpr fun hlen => ?_, List.append_nil]
    have hzero := hrest _ (List.getElem_mem hlen)
    simpa using hzero
  · simpa using ne_of_mem_of_not_mem hb h0

theorem clean_mk (h0 : 0 ∉ e.text) (hrest : ∀ b ∈ e.buffer.drop e.position, b = 0) : Clean e :=
  ⟨h0, hrest, cstr_of_split h0 hrest⟩

/-- The last byte of the buffer is a NUL. -/
def Ended (e : EditorState) : Prop := e.buffer[editorBufferSize - 1]? = some 0

end EditorState

namespace Effect

open EditorState

variable {e e' : EditorState} {eff : Effect}

/-- Behind the text nothing is ever written but a NUL. -/
theorem rest_apply (hrest : ∀ b ∈ e.buffer.drop e.position, b = 0) (h : eff.apply e = some e') :
    ∀ b ∈ e'.buffer.drop e'.position, b = 0 := by
  have hpush : ∀ {c e₁}, e.push c = some e₁ → ∀ b ∈ e₁.buffer.drop e₁.position, b = 0 := by
    intro c e₁ he₁ b hb
    obtain ⟨_, rfl⟩ := push_eq_some he₁
    refine hrest b ?_
    rw [List.drop_set_of_lt (Nat.lt_succ_self _)] at hb
    exact List.drop_subset_drop_left _ (Nat.le_succ _) hb
  cases eff with
  | still =>
    obtain rfl := Option.some.inj h
    exact hrest
  | enter =>
    obtain ⟨e₁, he₁, rfl⟩ := Option.map_eq_some_iff.mp h
    have hrest₁ := hpush he₁
    exact hrest₁
  | type c =>
    obtain ⟨e₁, he₁, rfl⟩ := Option.map_eq_some_iff.mp h
    have hrest₁ := hpush he₁
    exact hrest₁
  | erase =>
    obtain rfl := Option.some.inj h
    by_cases hpos : e.position > 0
    · rw [if_pos hpos, backspace_eq]
      intro b hb
      change b ∈ (e.buffer.set (e.position - 1) 0).drop (e.position - 1) at hb
      obtain ⟨i, hi, rfl⟩ := List.mem_drop_iff_getElem.mp hb
      rw [List.getElem_set]
      split
      · rfl
      · rw [List.length_set] at hi
        refine hrest _ (List.mem_drop_iff_getElem.mpr ⟨e.position - 1 + i - e.position, ?_, ?_⟩)
        · omega
        · congr 1
          omega
    · rw [if_neg hpos]
      exact hrest

/-- **A key keeps the text clean unless it types a NUL.** -/
theorem clean_apply_iff (hs : Sized e) (hc : Clean e) (h : eff.apply e = some e') :
    Clean e' ↔ eff ≠ type 0 := by
  have htext := text_apply hs h
  constructor
  · rintro hclean rfl
    refine hclean.noNul ?_
    rw [htext]
    exact List.mem_append_right _ (List.mem_singleton_self _)
  · intro hne
    refine clean_mk ?_ (rest_apply hc.rest h)
    rw [htext]
    cases eff with
    | still => exact hc.noNul
    | enter => exact fun hmem => (List.mem_append.mp hmem).elim hc.noNul (by decide)
    | erase => exact fun hmem => hc.noNul (List.dropLast_subset _ hmem)
    | type c =>
      refine fun hmem => (List.mem_append.mp hmem).elim hc.noNul fun hzero => hne ?_
      rw [List.mem_singleton.mp hzero]

end Effect

namespace Kernel

open EditorState

variable {answer : Calls → List Byte → Bool} {k k' : Kernel}

theorem clean_boot : Sized boot.editor ∧ boot.editor.Clean :=
  ⟨sized_editorInit, EditorState.clean_mk List.not_mem_nil fun b hb => by
    rw [boot, List.drop_zero] at hb
    exact List.eq_of_mem_replicate hb⟩

/-- From any kernel with a clean text. -/
theorem text_iff_of_clean (hk : Sized k.editor ∧ k.editor.Clean) (es : List KernelEvent) :
    (∀ c ∈ trace (step answer) k es, ∀ k', c.1.step answer c.2 = some k' → k'.editor.Clean) ↔
      ∀ c ∈ trace (step answer) k es,
        c.1.effectOf c.2 = .type 0 → ¬ c.1.editor.position < editorBufferSize := by
  have hevent : ∀ (k k' : Kernel) e, Sized k.editor ∧ k.editor.Clean → k.step answer e = some k' →
      Sized k'.editor ∧ (k'.editor.Clean ↔ k.effectOf e ≠ .type 0) := by
    rintro k k' e ⟨hs, hc⟩ h
    obtain ⟨ed, hed, hk'⟩ := editor_of_step h
    have hsized := Effect.sized_apply hs hed
    have hiff := Effect.clean_apply_iff hs hc hed
    rw [hk']
    exact ⟨⟨hsized.length, hsized.le⟩,
      ⟨fun hclean => hiff.mp ⟨hclean.noNul, hclean.rest, hclean.shown⟩,
        fun hne => ⟨(hiff.mpr hne).noNul, (hiff.mpr hne).rest, (hiff.mpr hne).shown⟩⟩⟩
  refine Trace.forall_iff (J := fun k : Kernel => Sized k.editor ∧ k.editor.Clean)
    (Q := fun k e => ∀ k', step answer k e = some k' → k'.editor.Clean)
    (A := fun k e => effectOf k e = .type 0 → ¬ k.editor.position < editorBufferSize) hk ?_ ?_
  · intro k e hJ
    constructor
    · intro hQ htype hlt
      obtain ⟨k', hk'⟩ := step_of_effect answer (by rw [htype]; exact fun h => by cases h)
        (by rw [htype, Effect.apply, push, if_pos hlt]; rfl)
      exact (hevent k k' e hJ hk').2.mp (hQ k' hk') htype
    · intro hA k' hk'
      refine (hevent k k' e hJ hk').2.mpr fun htype => ?_
      obtain ⟨ed, hed, -⟩ := editor_of_step hk'
      rw [htype] at hed
      obtain ⟨e₁, he₁, -⟩ := Option.map_eq_some_iff.mp hed
      exact hA htype (push_eq_some he₁).1
  · intro k e k' hJ hQ h
    exact ⟨(hevent k k' e hJ h).1, hQ k' h⟩

/-- **The text is clean after every event exactly if no key is typed that has no character in the
active layout.** -/
theorem text_iff (answer : Calls → List Byte → Bool) (es : List KernelEvent) :
    (∀ c ∈ trace (step answer) boot es, ∀ k', c.1.step answer c.2 = some k' → k'.editor.Clean) ↔
      ∀ c ∈ trace (step answer) boot es,
        c.1.effectOf c.2 = .type 0 → ¬ c.1.editor.position < editorBufferSize :=
  text_iff_of_clean clean_boot es

/-- `edit`. -/
def editRound : KernelEvent := .round ⟨[str "edit"], [], [], []⟩

/-- Escape is typed: a NUL. -/
theorem not_clean_escape : ¬ ∀ c ∈ trace (step fun _ _ => true) boot
    [editRound, .key ⟨1, false, 0⟩],
    ∀ k', c.1.step (fun _ _ => true) c.2 = some k' → k'.editor.Clean := by
  intro h
  have hkept := (text_iff_of_clean clean_boot _).mp h
  have hopen : (boot.step (fun _ _ => true) editRound).map
      (fun k => (k.effectOf (.key ⟨1, false, 0⟩), k.editor.position)) = some (.type 0, 0) := by
    decide +kernel
  obtain ⟨k, hk, heffect⟩ := Option.map_eq_some_iff.mp hopen
  have hposition : k.editor.position = 0 := (Prod.ext_iff.mp heffect).2
  refine hkept (k, .key ⟨1, false, 0⟩) ?_ (Prod.ext_iff.mp heffect).1 ?_
  · exact Trace.mem_of_run (l := [editRound]) (Trace.run_cons hk)
  · rw [hposition]
    decide

end Kernel

/-! ## The bounds of the buffer -/

namespace Effect

open EditorState

variable {e e' : EditorState} {eff : Effect}

/-- The indices of `editor.buffer` that are stored to. -/
def stores : Effect → EditorState → List ℕ
  | still, _ => []
  | enter, e => [e.position]
  | erase, e => if e.position > 0 then [e.position - 1] else []
  | type _, e => [e.position]

/-- What is typed is in front of the last byte, or is a NUL there. -/
def Fits : Effect → EditorState → Prop
  | still, _ => True
  | enter, e => e.position < editorBufferSize - 1
  | erase, _ => True
  | type c, e => e.position < editorBufferSize - 1 ∨ e.position = editorBufferSize - 1 ∧ c = 0

theorem size_pos : 0 < editorBufferSize := by decide

/-- A character goes into the buffer and leaves the last byte alone, or is a NUL there. -/
theorem ended_push_iff {c : Byte} (hs : Sized e) (he : Ended e) :
    (e.position < editorBufferSize ∧ ∀ e', e.push c = some e' → Ended e') ↔
      e.position < editorBufferSize - 1 ∨ e.position = editorBufferSize - 1 ∧ c = 0 := by
  have hsize := size_pos
  have hlen := hs.length
  by_cases hlt : e.position < editorBufferSize
  case neg => exact iff_of_false (fun h => hlt h.1) (by omega)
  have hpush : (∀ e', e.push c = some e' → Ended e') ↔
      (e.buffer.set e.position c)[editorBufferSize - 1]? = some 0 := by
    rw [push, if_pos hlt]
    exact ⟨fun h => h _ rfl, fun h e' he' => Option.some.inj he' ▸ h⟩
  rw [hpush, List.getElem?_set, and_iff_right hlt]
  by_cases hlast : e.position = editorBufferSize - 1
  · rw [if_pos hlast, if_pos (by omega), Option.some.injEq]
    exact ⟨fun hc => Or.inr ⟨hlast, hc⟩, fun h => h.elim (fun h => by omega) And.right⟩
  · rw [if_neg hlast]
    exact iff_of_true he (Or.inl (by omega))

/-- What else a key changes of the editor is not the last byte. -/
theorem ended_map_iff {c : Byte} {f : EditorState → EditorState} (hf : ∀ e, Ended (f e) ↔ Ended e) :
    (∀ e', (e.push c).map f = some e' → Ended e') ↔ ∀ e', e.push c = some e' → Ended e' := by
  constructor
  · exact fun h e' he' => (hf e').mp (h _ (by rw [he']; rfl))
  · intro h e' he'
    obtain ⟨e₁, he₁, rfl⟩ := Option.map_eq_some_iff.mp he'
    exact (hf e₁).mpr (h e₁ he₁)

/-- Backspace always keeps the bounds. -/
theorem bounds_erase (hs : Sized e) (he : Ended e) :
    (∀ i ∈ erase.stores e, i < editorBufferSize) ∧ ∀ e', erase.apply e = some e' → Ended e' := by
  have hle := hs.le
  have hsize := size_pos
  refine ⟨fun i hi => ?_, fun e' h => ?_⟩
  · rw [stores] at hi
    split_ifs at hi with hpos
    · rw [List.mem_singleton.mp hi]
      omega
    · exact absurd hi List.not_mem_nil
  · obtain rfl := Option.some.inj h
    by_cases hpos : e.position > 0
    · rw [if_pos hpos, backspace_eq, Ended, List.getElem?_set]
      split_ifs with hlast hlen
      · rfl
      · have hlength := hs.length
        omega
      · exact he
    · rw [if_neg hpos]
      exact he

/-- **A key keeps the bounds exactly if it fits.** -/
theorem bounds_apply_iff (hs : Sized e) (he : Ended e) :
    ((∀ i ∈ eff.stores e, i < editorBufferSize) ∧ ∀ e', eff.apply e = some e' → Ended e') ↔
      eff.Fits e := by
  have hone : ∀ {i}, (∀ j ∈ [i], j < editorBufferSize) ↔ i < editorBufferSize := by simp
  cases eff with
  | still =>
    exact iff_of_true ⟨fun i hi => absurd hi List.not_mem_nil, fun e' h => Option.some.inj h ▸ he⟩
      trivial
  | enter =>
    rw [stores, hone, apply, ended_map_iff, ended_push_iff hs he, Fits]
    · exact or_iff_left fun h => absurd h.2 (by decide)
    · exact fun e => Iff.rfl
  | type c =>
    rw [stores, hone, apply, ended_map_iff, ended_push_iff hs he, Fits]
    exact fun e => Iff.rfl
  | erase => exact iff_of_true (bounds_erase hs he) trivial

end Effect

namespace Kernel

open EditorState Effect

variable {answer : Calls → List Byte → Bool} {k k' : Kernel}

theorem ended_boot : Sized boot.editor ∧ Ended boot.editor :=
  ⟨sized_editorInit, by
    rw [Ended, boot, List.getElem?_replicate, if_pos (by decide)]⟩

/-- From any kernel whose buffer ends in a NUL. -/
theorem bounds_iff_of_ended (hk : Sized k.editor ∧ Ended k.editor) (es : List KernelEvent) :
    (∀ c ∈ trace (step answer) k es,
        (∀ i ∈ (c.1.effectOf c.2).stores c.1.editor, i < editorBufferSize) ∧
        ∀ k', c.1.step answer c.2 = some k' → Ended k'.editor) ↔
      ∀ c ∈ trace (step answer) k es, (c.1.effectOf c.2).Fits c.1.editor := by
  refine Trace.forall_iff (J := fun k : Kernel => Sized k.editor ∧ Ended k.editor)
    (Q := fun k e => (∀ i ∈ (effectOf k e).stores k.editor, i < editorBufferSize) ∧
      ∀ k', step answer k e = some k' → Ended k'.editor)
    (A := fun k e => (effectOf k e).Fits k.editor) hk ?_ ?_
  · rintro k e ⟨hs, he⟩
    rw [← bounds_apply_iff hs he]
    refine and_congr_right fun _ => ⟨fun h ed hed => ?_, fun h k' hk' => ?_⟩
    · by_cases hstill : k.effectOf e = .still
      · rw [hstill] at hed
        exact Option.some.inj hed ▸ he
      · obtain ⟨k', hk'⟩ := step_of_effect answer hstill hed
        obtain ⟨ed', hed', heditor⟩ := editor_of_step hk'
        obtain rfl := Option.some.inj (hed.symm.trans hed')
        have hended := h k' hk'
        rwa [heditor] at hended
    · obtain ⟨ed, hed, heditor⟩ := editor_of_step hk'
      rw [heditor]
      exact h ed hed
  · rintro k e k' ⟨hs, he⟩ hQ hk'
    obtain ⟨ed, hed, heditor⟩ := editor_of_step hk'
    have hsized := sized_apply hs hed
    exact ⟨by rw [heditor]; exact ⟨hsized.length, hsized.le⟩, hQ.2 k' hk'⟩

/-- **The editor stays inside its buffer exactly if whatever is typed fits.** -/
theorem bounds_iff (answer : Calls → List Byte → Bool) (es : List KernelEvent) :
    (∀ c ∈ trace (step answer) boot es,
        (∀ i ∈ (c.1.effectOf c.2).stores c.1.editor, i < editorBufferSize) ∧
        ∀ k', c.1.step answer c.2 = some k' → Ended k'.editor) ↔
      ∀ c ∈ trace (step answer) boot es, (c.1.effectOf c.2).Fits c.1.editor :=
  bounds_iff_of_ended ended_boot es

/-! ### The key A, 4096 times -/

/-- The key A. -/
def keyA : KernelEvent := .key ⟨chr 'a', false, 0⟩

/-- The editor is open in the US layout and holds `n` characters. -/
structure Typing (k : Kernel) (n : ℕ) : Prop where
  active : k.editor.isActive = true
  ctrl : k.ctrl = false
  layout : k.currentLayout = .us
  position : k.editor.position = n

theorem effectOf_keyA {n : ℕ} (h : Typing k n) : k.effectOf keyA = .type (chr 'a') := by
  rw [keyA, effectOf]
  simp only [if_pos h.active, effect, character, KeyPress.point, h.ctrl, h.layout]
  decide

theorem step_keyA (answer : Calls → List Byte → Bool) {n : ℕ} (h : Typing k n)
    (hn : n < editorBufferSize) :
    ∃ k', k.step answer keyA = some k' ∧ Typing k' (n + 1) := by
  have hchar : (KeyPress.point ⟨chr 'a', false, 0⟩ k).character (chr 'a') 0 = chr 'a' := by
    simp only [character, KeyPress.point, h.layout]
    decide
  have hpush : k.editor.push (chr 'a') = some { k.editor with
      buffer := k.editor.buffer.set k.editor.position (chr 'a')
      position := k.editor.position + 1 } := if_pos (by rw [h.position]; exact hn)
  have hctrl : ¬ (KeyPress.point ⟨chr 'a', false, 0⟩ k).ctrl = true := by
    rw [KeyPress.point, h.ctrl]
    exact Bool.false_ne_true
  rw [keyA, step, if_pos h.active, KeyPress.handle, editorHandleInput, if_neg (by decide),
    if_neg (by decide), if_neg (by decide), if_neg hctrl, if_neg (by decide), if_neg (by decide),
    if_pos (by decide), hchar, characterKey]
  change ∃ k', (((k.editor.push (chr 'a')).map _).map _) = some k' ∧ _
  rw [hpush]
  exact ⟨_, rfl, h.active, h.ctrl, h.layout, congrArg (· + 1) h.position⟩

/-- Typing on. -/
theorem run_keyA (answer : Calls → List Byte → Bool) {n m : ℕ} (h : Typing k m)
    (hn : m + n ≤ editorBufferSize) :
    ∃ k', Trace.run (step answer) k (List.replicate n keyA) = some k' ∧ Typing k' (m + n) := by
  induction n generalizing k m with
  | zero => exact ⟨k, rfl, h⟩
  | succ n ih =>
    obtain ⟨k₁, hk₁, h₁⟩ := step_keyA answer h (by omega)
    obtain ⟨k', hk', h'⟩ := ih h₁ (by omega)
    rw [Nat.add_right_comm, Nat.add_assoc] at h'
    exact ⟨k', by rw [List.replicate_succ, Trace.run_cons hk₁, hk'], h'⟩

/-- The 4096th character is stored over the last NUL. -/
theorem not_bounds_keyA : ¬ ∀ c ∈ trace (step fun _ _ => true) boot
      (editRound :: List.replicate 4095 keyA ++ [keyA]),
    (∀ i ∈ (c.1.effectOf c.2).stores c.1.editor, i < editorBufferSize) ∧
    ∀ k', c.1.step (fun _ _ => true) c.2 = some k' → Ended k'.editor := by
  intro h
  have hfits := (bounds_iff_of_ended ended_boot _).mp h
  have hopen : (boot.step (fun _ _ => true) editRound).map (fun k =>
      (k.editor.isActive, k.ctrl, k.currentLayout, k.editor.position)) =
        some (true, false, .us, 0) := by
    decide +kernel
  obtain ⟨k, hk, hstate⟩ := Option.map_eq_some_iff.mp hopen
  simp only [Prod.mk.injEq] at hstate
  have htyping : Typing k 0 := ⟨hstate.1, hstate.2.1, hstate.2.2.1, hstate.2.2.2⟩
  obtain ⟨k', hk', hlast⟩ := run_keyA (fun _ _ => true) (n := 4095) htyping (by decide)
  have hlastFits := hfits (k', keyA) (Trace.mem_of_run ((Trace.run_cons hk).trans hk'))
  rw [effectOf_keyA hlast, Fits, hlast.position] at hlastFits
  exact absurd hlastFits (by decide)

end Kernel

end HuskyKernel
