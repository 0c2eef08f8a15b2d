import Mathlib.Data.List.Basic

/-!
# Logic/Trace — the steps a list of inputs makes

A machine `f : σ → ι → Option σ` takes one input after another and may fail to return.
`trace f s l` lists the steps that the inputs `l` make from `s`, each by the state it is made from
and its input; a step that does not return is the last.  What every step of a run does can be read
off the state before it and its input as soon as that is so under an invariant which steps that do
it keep: `Trace.forall_iff`.
-/

variable {σ ι : Type*} {f : σ → ι → Option σ} {s t : σ} {i : ι} {l : List ι}

/-- The steps the inputs make. -/
def trace (f : σ → ι → Option σ) : σ → List ι → List (σ × ι)
  | _, [] => []
  | s, i :: l => (s, i) :: ((f s i).map fun t => trace f t l).getD []

namespace Trace

/-- Where the inputs lead, if every step returns. -/
def run (f : σ → ι → Option σ) : σ → List ι → Option σ
  | s, [] => some s
  | s, i :: l => (f s i).bind fun t => run f t l

theorem run_cons (h : f s i = some t) : run f s (i :: l) = run f t l := by
  rw [run, h]
  rfl

theorem run_append {u : σ} {l' : List ι} (h : run f s l = some t) (h' : run f t l' = some u) :
    run f s (l ++ l') = some u := by
  induction l generalizing s with
  | nil => rwa [← Option.some.inj h] at h'
  | cons i l ih =>
    obtain ⟨s', hs', hl⟩ := Option.bind_eq_some_iff.mp h
    rw [List.cons_append, run, hs']
    exact ih hl

theorem mem_cons_iff {c : σ × ι} :
    c ∈ trace f s (i :: l) ↔ c = (s, i) ∨ ∃ t, f s i = some t ∧ c ∈ trace f t l := by
  rw [trace, List.mem_cons]
  cases f s i with
  | none => simp
  | some t => simp

/-- The step made where the inputs before it have led. -/
theorem mem_of_run {l' : List ι} (h : run f s l = some t) : (t, i) ∈ trace f s (l ++ i :: l') := by
  induction l generalizing s with
  | nil => exact mem_cons_iff.mpr (Or.inl (by rw [Option.some.inj h]))
  | cons j l ih =>
    obtain ⟨s', hs', hl⟩ := Option.bind_eq_some_iff.mp h
    exact mem_cons_iff.mpr (Or.inr ⟨s', hs', ih hl⟩)

/-- A property of every step: of the first one and, if it returns, of those that follow. -/
theorem forall_cons_iff {Q : σ → ι → Prop} :
    (∀ c ∈ trace f s (i :: l), Q c.1 c.2) ↔
      Q s i ∧ ∀ t, f s i = some t → ∀ c ∈ trace f t l, Q c.1 c.2 := by
  simp only [mem_cons_iff]
  constructor
  · intro h
    exact ⟨h _ (Or.inl rfl), fun t ht c hc => h c (Or.inr ⟨t, ht, hc⟩)⟩
  · rintro ⟨hfirst, hrest⟩ c (rfl | ⟨t, ht, hc⟩)
    · exact hfirst
    · exact hrest t ht c hc

/-- A property of every input and those before it: of the first one, and of those that follow. -/
theorem forall_prefix_cons {P : List ι → ι → Prop} :
    (∀ is j, is ++ [j] <+: i :: l → P is j) ↔
      P [] i ∧ ∀ is j, is ++ [j] <+: l → P (i :: is) j := by
  constructor
  · intro h
    exact ⟨h [] i (List.prefix_append [i] l),
      fun is j hpre => h (i :: is) j ((List.prefix_cons_inj i).mpr hpre)⟩
  · rintro ⟨hfirst, hrest⟩ is j hpre
    cases is with
    | nil =>
      obtain rfl : j = i := (List.cons_prefix_cons.mp hpre).1
      exact hfirst
    | cons i' is =>
      rw [List.cons_append] at hpre
      obtain ⟨rfl, htail⟩ := List.cons_prefix_cons.mp hpre
      exact hrest is j htail

/-- **What the steps of a run do, read off the states they are made from.** -/
theorem forall_iff {J : σ → Prop} {Q A : σ → ι → Prop} (hs : J s)
    (hstep : ∀ s i, J s → (Q s i ↔ A s i))
    (hkeep : ∀ s i t, J s → Q s i → f s i = some t → J t) :
    (∀ c ∈ trace f s l, Q c.1 c.2) ↔ ∀ c ∈ trace f s l, A c.1 c.2 := by
  induction l generalizing s with
  | nil =>
    exact iff_of_true (fun c hc => absurd hc List.not_mem_nil)
      fun c hc => absurd hc List.not_mem_nil
  | cons i l ih =>
    rw [forall_cons_iff, forall_cons_iff, ← hstep s i hs]
    exact and_congr_right fun hq => forall_congr' fun t => forall_congr' fun ht =>
      ih (hkeep s i t hs hq ht)

end Trace
