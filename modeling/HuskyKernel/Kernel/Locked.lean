import HuskyKernel.Kernel.Dispatch

/-!
# Kernel/Locked — the layouts the prompt gets to

In a layout that was never written every line is empty, whatever keys make it.  So once `cl` has
selected one the prompt hears no word any more, for ever (`locked`), while the two that were written
lead to all five (`reach_iff`).
-/

namespace HuskyKernel

open Mem CommandLine

namespace Console

variable {w : Platform} {s t u : Console} {y : Typing}

/-- Rounds, none of them the last. -/
def rounds (w : Platform) : List Entry → Console → Option Console
  | [], s => some s
  | e :: es, s => (s.round w e).bind fun (last, t) => if last then none else rounds w es t

theorem rounds_cons {e : Entry} {es : List Entry} (h : s.round w e = some (false, t)) :
    s.rounds w (e :: es) = t.rounds w es := by
  rw [rounds, h]
  rfl

/-! ## Locked in -/

/-- Lines are read one after the other, and no word is heard in any of them. -/
inductive Deaf (w : Platform) : List Entry → Console → Console → Prop
  | nil (s : Console) : Deaf w [] s s
  | cons {e : Entry} {es : List Entry} {s t u : Console} (hnone : s.hear w e = some (0, t))
      (hrest : Deaf w es t u) : Deaf w (e :: es) s u

/-- …so the prompt goes on to its next round each time. -/
theorem Deaf.rounds {es : List Entry} (h : Deaf w es s t) : s.rounds w es = some t := by
  induction h with
  | nil s => rfl
  | cons hnone _ ih => rw [rounds_cons (round_of_hear hnone), ih]

/-- From `s` to `t` nothing has happened but on the screen, in `command` and to `*shift`. -/
structure Unmoved (w : Platform) (s t : Console) : Prop where
  kernel : Shows s.kernel t.kernel
  same : t.listing = { s.listing with mem := t.mem } ∧ t.messages = s.messages ∧ t.acpi = s.acpi
  frame : ∀ x, x ≠ 0 → ¬ Within w.command commandSize x → t.mem x = s.mem x

theorem Unmoved.refl (w : Platform) (s : Console) : Unmoved w s s :=
  ⟨⟨[], by rw [List.append_nil]⟩, ⟨rfl, rfl, rfl⟩, fun _ _ _ => rfl⟩

theorem Unmoved.trans (h : Unmoved w s t) (h' : Unmoved w t u) : Unmoved w s u := by
  obtain ⟨⟨output, houtput⟩, ⟨hlisting, hmessages, hacpi⟩, hframe⟩ := h
  obtain ⟨⟨output', houtput'⟩, ⟨hlisting', hmessages', hacpi'⟩, hframe'⟩ := h'
  refine ⟨⟨output ++ output', ?_⟩, ⟨?_, hmessages'.trans hmessages, hacpi'.trans hacpi⟩,
    fun x hx hin => (hframe' x hx hin).trans (hframe x hx hin)⟩
  · rw [houtput', houtput, List.append_assoc]
  · rw [hlisting', hlisting]

theorem Heard.unmoved {text : List Byte} (h : Heard w text s t) : Unmoved w s t :=
  ⟨h.kernel, h.same, h.frame⟩

/-- In a layout that was never written every line is empty. -/
theorem typed_of_lost (h : typable s.kernel.currentLayout = []) (y : Typing) : s.typed y = [] := by
  refine List.eq_nil_iff_forall_not_mem.mpr fun c hc => ?_
  have hmem := typable_strokes y.line.ps2 hc
  rw [h] at hmem
  exact List.not_mem_nil hmem

/-- A round there: no word is heard, and nothing happens. -/
theorem hear_of_lost (hs : s.mem.cstr? w.blank = some (str " "))
    (hlost : typable s.kernel.currentLayout = []) (y : Typing) :
    ∃ t, s.hear w y.entry = some (0, t) ∧ Unmoved w s t := by
  have hnone : wordsOf (s.typed y) = [] := by rw [typed_of_lost hlost, wordsOf_nil]
  obtain ⟨t, ht, hhear⟩ := exists_heard hs y (by rw [hnone]; exact Nat.zero_le _)
  rw [hnone] at hhear
  exact ⟨t, hhear, ht.unmoved⟩

theorem Unmoved.blank (h : Unmoved w s t) (hs : s.mem.cstr? w.blank = some (str " ")) :
    t.mem.cstr? w.blank = some (str " ") :=
  cstr?_congr hs fun x hx => h.frame x (w.blank_ne_null hx) (w.apart x hx)

theorem Unmoved.currentLayout (h : Unmoved w s t) :
    t.kernel.currentLayout = s.kernel.currentLayout := by
  obtain ⟨output, houtput⟩ := h.kernel
  rw [houtput]

/-- **Locked in**: in a layout that was never written no command can be given.  Whatever lines are
typed, as long as each fits `command`, no word is heard in any of them, the prompt goes on to its
next round, for ever, and nothing happens — induction on the lines. -/
theorem locked (hs : s.mem.cstr? w.blank = some (str " "))
    (hlost : typable s.kernel.currentLayout = []) (ys : List Typing) :
    ∃ t, Deaf w (ys.map Typing.entry) s t ∧ s.rounds w (ys.map Typing.entry) = some t ∧
      Unmoved w s t := by
  have hdeaf : ∃ t, Deaf w (ys.map Typing.entry) s t ∧ Unmoved w s t := by
    induction ys generalizing s with
    | nil => exact ⟨s, .nil s, .refl w s⟩
    | cons y ys ih =>
      obtain ⟨t, hhear, ht⟩ := hear_of_lost hs hlost y
      obtain ⟨u, hu, hunmoved⟩ := ih (ht.blank hs) (ht.currentLayout.symm ▸ hlost)
      exact ⟨u, .cons hhear hu, ht.trans hunmoved⟩
  obtain ⟨t, ht, hunmoved⟩ := hdeaf
  exact ⟨t, ht, ht.rounds, hunmoved⟩

/-- A prompt in the French layout. -/
def frenchPrompt : Console :=
  { firstPrompt with kernel := { firstPrompt.kernel with currentLayout := .fr } }

/-- `help`, and Enter. -/
def helpTyped : Typing where
  line := .ofShort (str "help") (by decide +kernel) (by decide) (by decide)
  beyond := fun _ => 0
  edits := []

/-- Nobody gets help in French, however often they ask. -/
theorem locked_fr : ∃ t,
    Deaf .sample ([helpTyped, helpTyped].map Typing.entry) frenchPrompt t ∧
      frenchPrompt.rounds .sample ([helpTyped, helpTyped].map Typing.entry) = some t ∧
      Unmoved .sample frenchPrompt t := by
  have hblank : frenchPrompt.mem.cstr? Platform.sample.blank = some (str " ") :=
    ready_firstPrompt.blank
  have hlost : typable frenchPrompt.kernel.currentLayout = [] := rfl
  exact locked hblank hlost [helpTyped, helpTyped]

/-! ## Getting there -/

/-- What `cl` calls a layout. -/
def nameOf : KeyboardLayout → List Byte
  | .us => str "en_us"
  | .de => str "de_de"
  | .fr => str "fr_fr"
  | .es => str "es_es"
  | .ru => str "ru_ru"

theorem layoutOf_nameOf (layout : KeyboardLayout) : layoutOf (nameOf layout) = some layout := by
  cases layout <;> decide +kernel

/-- The line that selects a layout can be typed in the layouts that were written. -/
theorem typable_cl {layout layout' : KeyboardLayout} (h : typable layout ≠ []) :
    ∀ c ∈ lineOf [str "cl", nameOf layout'], c ∈ typable layout := by
  cases layout with
  | us => cases layout' <;> decide +kernel
  | de => cases layout' <;> decide +kernel
  | fr => exact absurd rfl h
  | es => exact absurd rfl h
  | ru => exact absurd rfl h

theorem isWord_nameOf (layout : KeyboardLayout) : IsWord (nameOf layout) := by
  cases layout <;> exact ⟨by decide +kernel, by decide +kernel⟩

/-- **`cl` gets to every layout**, from those that were written. -/
theorem exists_cl (hs : s.mem.cstr? w.blank = some (str " "))
    (h : typable s.kernel.currentLayout ≠ []) (layout : KeyboardLayout) : ∃ y t,
      s.round w (Typing.entry y) = some (false, t) ∧ t.kernel.currentLayout = layout := by
  have hlen : (lineOf [str "cl", nameOf layout]).length < commandSize := by
    cases layout <;> decide +kernel
  have hwords : ∀ word ∈ [str "cl", nameOf layout], IsWord word :=
    List.forall_mem_cons.mpr ⟨⟨by decide +kernel, by decide +kernel⟩,
      List.forall_mem_singleton.mpr (isWord_nameOf layout)⟩
  obtain ⟨y, t, hline, -, ht, hround⟩ := exists_typed hs hwords (typable_cl h) hlen
    (show 2 ≤ argsSize by decide)
  have htwo : [str "cl", nameOf layout].length = 2 := rfl
  rw [htwo, if_neg (by decide)] at hround
  have harg {i : ℕ} {word : List Byte} (hword : [str "cl", nameOf layout][i]? = some word) :
      t.arg i = some word := ht.arg (hline ▸ hword)
  refine ⟨y, { t with kernel := t.kernel.cl [nameOf layout] }, ?_, ?_⟩
  · have hcl : commandOf (str "cl") = .cl := commandOf_word .cl
    rw [hround, perform, harg (i := 0) rfl, Option.bind_eq_bind, Option.bind_some, hcl]
    dsimp only
    rw [if_pos (by decide), harg (i := 1) rfl]
    rfl
  · dsimp only
    rw [Kernel.cl, layoutOf_nameOf]
    rfl

theorem layout_of_lost (hs : s.mem.cstr? w.blank = some (str " "))
    (hlost : typable s.kernel.currentLayout = []) {ys : List Typing}
    (h : s.rounds w (ys.map Typing.entry) = some t) :
    t.kernel.currentLayout = s.kernel.currentLayout := by
  induction ys generalizing s with
  | nil => rw [Option.some.inj h]
  | cons y ys ih =>
    obtain ⟨u, hhear, hu⟩ := hear_of_lost hs hlost y
    rw [List.map_cons, rounds_cons (round_of_hear hhear)] at h
    rw [ih (hu.blank hs) (hu.currentLayout.symm ▸ hlost) h, hu.currentLayout]

/-- **The layouts the prompt gets to**: all five from the two that were written, and from each of
the others itself alone. -/
theorem reach_iff (hs : s.mem.cstr? w.blank = some (str " ")) (layout : KeyboardLayout) :
    (∃ (ys : List Typing) (t : Console), s.rounds w (ys.map Typing.entry) = some t ∧
        t.kernel.currentLayout = layout) ↔
      layout = s.kernel.currentLayout ∨ typable s.kernel.currentLayout ≠ [] := by
  constructor
  · rintro ⟨ys, t, hrun, rfl⟩
    by_cases hlost : typable s.kernel.currentLayout = []
    · exact .inl (layout_of_lost hs hlost hrun)
    · exact .inr hlost
  · rintro (rfl | hwritten)
    · exact ⟨[], s, rfl, rfl⟩
    · obtain ⟨y, t, hround, hlayout⟩ := exists_cl hs hwritten layout
      exact ⟨[y], t, (rounds_cons hround).trans rfl, hlayout⟩

/-- From the first prompt the Russian layout is reached. -/
theorem reach_iff_ru : ∃ (ys : List Typing) (t : Console),
    firstPrompt.rounds .sample (ys.map Typing.entry) = some t ∧
      t.kernel.currentLayout = .ru := by
  have hwritten : typable firstPrompt.kernel.currentLayout ≠ [] :=
    (by decide : typable .us ≠ [])
  exact (reach_iff ready_firstPrompt.blank .ru).mpr (.inr hwritten)

end Console

end HuskyKernel
