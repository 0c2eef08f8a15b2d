import HuskyKernel.Logic.Scan

/-!
# Logic/Runs — the maximal runs of a list

`Run p l i j`: the elements of `l` from `i` to `j` are a maximal non-empty run of elements with `p`.
`runs p l k` finds those that start at `k` or later: skip what lacks `p`, walk over what has it, go
on behind the element that ended it.
-/

variable {α : Type*} {p : α → Bool} {l : List α} {i j k n : ℕ}

namespace Scan

/-- What is walked over and what is left. -/
theorem scanned_append_drop : scanned p l i ++ l.drop (scan p l i) = l.drop i := by
  rw [drop_scan]
  exact List.takeWhile_append_dropWhile

theorem scan_le_length (hi : i ≤ l.length) : scan p l i ≤ l.length := by
  have hlen : (scanned p l i).length ≤ (l.drop i).length :=
    (List.takeWhile_prefix p).length_le
  rw [List.length_drop] at hlen
  rw [scan]
  omega

/-- **Everything the loop walks over passes its test.** -/
theorem of_lt_scan (hi : i ≤ n) (hn : n < scan p l i) : ∃ a, l[n]? = some a ∧ p a = true := by
  obtain ⟨m, rfl⟩ := Nat.exists_eq_add_of_le hi
  have hm : m < (scanned p l i).length := Nat.lt_of_add_lt_add_left hn
  refine ⟨(scanned p l i)[m], ?_, List.mem_takeWhile_imp (List.getElem_mem hm)⟩
  rw [← List.getElem?_drop, ← scanned_append_drop, List.getElem?_append_left hm,
    List.getElem?_eq_getElem hm]

/-- **What the loop stops at fails its test.** -/
theorem not_of_eq_scan {a : α} (ha : l[scan p l i]? = some a) : p a = false := by
  rw [← Nat.add_zero (scan p l i), ← List.getElem?_drop, drop_scan] at ha
  cases hl : (l.drop i).dropWhile p with
  | nil => rw [hl] at ha; cases ha
  | cons b t =>
    rw [hl] at ha
    obtain rfl : b = a := Option.some.inj ha
    have hhead := List.head_dropWhile_not p (l := l.drop i) (by simp [hl])
    simpa [hl] using hhead

end Scan

open Scan

/-- The elements of `l` from `i` to `j` are a maximal non-empty run of elements with `p`. -/
structure Run (p : α → Bool) (l : List α) (i j : ℕ) : Prop where
  lt : i < j
  all : ∀ m, i ≤ m → m < j → ∃ a, l[m]? = some a ∧ p a = true
  left : ∀ m, m + 1 = i → ∀ a, l[m]? = some a → p a = false
  right : ∀ a, l[j]? = some a → p a = false

theorem Run.iff : Run p l i j ↔ i < j ∧ (∀ m < j, i ≤ m → (l[m]?).any p = true) ∧
    (∀ m < i, m + 1 = i → (l[m]?).any p = false) ∧ (l[j]?).any p = false := by
  have hnone : ∀ o : Option α, (∀ a, o = some a → p a = false) ↔ o.any p = false := by
    rintro (_ | a) <;> simp
  have hsome : ∀ o : Option α, (∃ a, o = some a ∧ p a = true) ↔ o.any p = true := by
    rintro (_ | a) <;> simp
  constructor
  · intro h
    exact ⟨h.lt, fun m hmj him => (hsome _).mp (h.all m him hmj),
      fun m _ hm => (hnone _).mp (h.left m hm), (hnone _).mp h.right⟩
  · rintro ⟨hlt, hall, hleft, hright⟩
    exact ⟨hlt, fun m him hmj => (hsome _).mpr (hall m hmj him),
      fun m hm => (hnone _).mpr (hleft m (by omega) hm), (hnone _).mpr hright⟩

instance : Decidable (Run p l i j) := decidable_of_iff' _ Run.iff

/-- A run that starts at `k` or later does not start inside another. -/
def Boundary (p : α → Bool) (l : List α) (k : ℕ) : Prop :=
  ∀ m, m + 1 = k → ∀ a, l[m]? = some a → p a = false

namespace Run

theorem le_length (h : Run p l i j) : j ≤ l.length := by
  obtain ⟨a, ha, -⟩ := h.all (j - 1) (Nat.le_sub_one_of_lt h.lt)
    (Nat.sub_one_lt_of_lt h.lt)
  have hlt : j - 1 < l.length := (List.getElem?_eq_some_iff.mp ha).1
  omega

/-- **Two runs that share an index are one.** -/
theorem unique {i' j' : ℕ} (h : Run p l i j) (h' : Run p l i' j') (hi : i ≤ i') (hj : i' < j) :
    i = i' ∧ j = j' := by
  have hstart : i = i' := by
    by_contra hne
    obtain ⟨a, ha, hpa⟩ := h.all (i' - 1) (by omega) (by omega)
    have hnot := h'.left (i' - 1) (by omega) a ha
    rw [hpa] at hnot
    cases hnot
  subst hstart
  refine ⟨rfl, ?_⟩
  rcases lt_trichotomy j j' with hlt | heq | hgt
  · obtain ⟨a, ha, hpa⟩ := h'.all j (by have := h.lt; omega) hlt
    have hnot := h.right a ha
    rw [hpa] at hnot
    cases hnot
  · exact heq
  · obtain ⟨a, ha, hpa⟩ := h.all j' (by have := h'.lt; omega) hgt
    have hnot := h'.right a ha
    rw [hpa] at hnot
    cases hnot

/-- **Skip and walk finds a run.** -/
theorem scan (hk : Boundary p l k) (hi : scan (fun a => !p a) l k < l.length) :
    Run p l (scan (fun a => !p a) l k) (scan p l (scan (fun a => !p a) l k)) := by
  set i := Scan.scan (fun a => !p a) l k with hidef
  have hpi : p l[i] = true := by
    simpa using not_of_eq_scan (p := fun a => !p a) (List.getElem?_eq_getElem hi)
  refine ⟨?_, fun m him hmj => of_lt_scan him hmj, fun m hm a ha => ?_,
    fun a ha => not_of_eq_scan ha⟩
  · have hsucc : Scan.scan p l i = Scan.scan p l (i + 1) := scan_succ' hi hpi
    have hle : i + 1 ≤ Scan.scan p l (i + 1) := le_scan
    omega
  · rcases Nat.lt_or_ge m k with hmk | hkm
    · have hik : k ≤ i := le_scan
      exact hk m (by omega) a ha
    · obtain ⟨b, hb, hpb⟩ := of_lt_scan (p := fun a => !p a) hkm (by omega : m < i)
      obtain rfl : b = a := Option.some.inj (hb.symm.trans ha)
      simpa using hpb
where
  scan_succ' {i : ℕ} (hi : i < l.length) (hpi : p l[i] = true) :
      Scan.scan p l i = Scan.scan p l (i + 1) := by
    rw [Scan.scan, Scan.scan, Scan.scanned, Scan.scanned, List.drop_eq_getElem_cons hi,
      List.takeWhile_cons_of_pos hpi, List.length_cons]
    omega

end Run

/-- The maximal runs that start at `k` or later, each with its end. -/
def runs (p : α → Bool) (l : List α) (k : ℕ) : List (ℕ × ℕ) :=
  if h : scan (fun a => !p a) l k < l.length then
    (scan (fun a => !p a) l k, scan p l (scan (fun a => !p a) l k)) ::
      runs p l (scan p l (scan (fun a => !p a) l k) + 1)
  else []
termination_by l.length - k
decreasing_by
  have h₁ : k ≤ scan (fun a => !p a) l k := le_scan
  have h₂ : scan (fun a => !p a) l k ≤ scan p l (scan (fun a => !p a) l k) := le_scan
  omega

namespace Run

theorem runs_of_lt (h : Scan.scan (fun a => !p a) l k < l.length) :
    runs p l k = (Scan.scan (fun a => !p a) l k,
        Scan.scan p l (Scan.scan (fun a => !p a) l k)) ::
      runs p l (Scan.scan p l (Scan.scan (fun a => !p a) l k) + 1) := by
  rw [runs, dif_pos h]

theorem runs_of_not_lt (h : ¬ Scan.scan (fun a => !p a) l k < l.length) : runs p l k = [] := by
  rw [runs, dif_neg h]

/-- A run that starts at `k` or later starts where the skipping stops, or later. -/
theorem scan_le (h : Run p l i j) (hk : k ≤ i) : Scan.scan (fun a => !p a) l k ≤ i := by
  by_contra hlt
  obtain ⟨a, ha, hpa⟩ := h.all i (Nat.le_refl i) h.lt
  obtain ⟨b, hb, hpb⟩ := of_lt_scan (p := fun a => !p a) hk (Nat.lt_of_not_le hlt)
  obtain rfl : b = a := Option.some.inj (hb.symm.trans ha)
  rw [hpa] at hpb
  cases hpb

/-- The next run may start behind the element that ended this one. -/
theorem boundary (h : Run p l i j) : Boundary p l (j + 1) := by
  intro m hm a ha
  obtain rfl : m = j := Nat.succ.inj hm
  exact h.right a ha

/-- **`runs` lists exactly the maximal runs.** -/
theorem mem_runs_iff {k : ℕ} (hk : Boundary p l k) : (i, j) ∈ runs p l k ↔ k ≤ i ∧ Run p l i j := by
  by_cases h : Scan.scan (fun a => !p a) l k < l.length
  case neg =>
    rw [runs_of_not_lt h]
    refine ⟨fun hmem => absurd hmem List.not_mem_nil, fun ⟨hki, hrun⟩ => ?_⟩
    have hlt := hrun.lt
    have hle := hrun.le_length
    have hscan := hrun.scan_le hki
    omega
  have hfirst := Run.scan hk h
  have hle : k ≤ Scan.scan (fun a => !p a) l k := le_scan
  have hlt := hfirst.lt
  rw [runs_of_lt h, List.mem_cons, mem_runs_iff hfirst.boundary]
  constructor
  · rintro (heq | ⟨hji, hrun⟩)
    · obtain ⟨rfl, rfl⟩ := Prod.ext_iff.mp heq
      exact ⟨hle, hfirst⟩
    · exact ⟨by omega, hrun⟩
  · rintro ⟨hki, hrun⟩
    rcases Nat.lt_or_ge i (Scan.scan p l (Scan.scan (fun a => !p a) l k)) with hij | hij
    · obtain ⟨rfl, rfl⟩ := hfirst.unique hrun (hrun.scan_le hki) hij
      exact Or.inl rfl
    · refine Or.inr ⟨Nat.lt_of_le_of_ne hij ?_, hrun⟩
      rintro rfl
      obtain ⟨a, ha, hpa⟩ := hrun.all _ (Nat.le_refl _) hrun.lt
      rw [hfirst.right a ha] at hpa
      cases hpa
termination_by l.length - k
decreasing_by omega

/-- A run that starts where they are looked for is the first. -/
theorem runs_of_run (h : Run p l k j) : runs p l k = (k, j) :: runs p l (j + 1) := by
  have hstart : Scan.scan (fun a => !p a) l k = k := le_antisymm (h.scan_le le_rfl) le_scan
  have hlt : Scan.scan (fun a => !p a) l k < l.length := by
    rw [hstart]
    exact h.lt.trans_le h.le_length
  have hfirst := Run.scan h.left hlt
  rw [hstart] at hfirst
  obtain ⟨-, hj⟩ := hfirst.unique h le_rfl hfirst.lt
  rw [runs_of_lt hlt, hstart, hj]

/-- There is none behind the end. -/
theorem runs_of_length_le (h : l.length ≤ k) : runs p l k = [] :=
  runs_of_not_lt (not_lt.mpr (h.trans le_scan))

/-- Each takes an element. -/
theorem length_runs_le (p : α → Bool) (l : List α) (k : ℕ) :
    (runs p l k).length ≤ l.length - k := by
  by_cases h : Scan.scan (fun a => !p a) l k < l.length
  case neg =>
    rw [runs_of_not_lt h]
    exact Nat.zero_le _
  have hi : k ≤ Scan.scan (fun a => !p a) l k := le_scan
  have hj : Scan.scan (fun a => !p a) l k ≤ Scan.scan p l (Scan.scan (fun a => !p a) l k) :=
    le_scan
  have hrest := length_runs_le p l (Scan.scan p l (Scan.scan (fun a => !p a) l k) + 1)
  rw [runs_of_lt h, List.length_cons]
  omega
termination_by l.length - k
decreasing_by omega

/-- **They are listed in order**, an element between each and the next. -/
theorem pairwise_runs {k : ℕ} (hk : Boundary p l k) :
    (runs p l k).Pairwise fun r r' => r.2 < r'.1 := by
  by_cases h : Scan.scan (fun a => !p a) l k < l.length
  case neg => rw [runs_of_not_lt h]; exact List.Pairwise.nil
  have hfirst := Run.scan hk h
  have hle : k ≤ Scan.scan (fun a => !p a) l k := le_scan
  have hlt := hfirst.lt
  rw [runs_of_lt h]
  exact List.pairwise_cons.mpr ⟨fun r hr => ((mem_runs_iff hfirst.boundary).mp hr).1,
    pairwise_runs hfirst.boundary⟩
termination_by l.length - k
decreasing_by omega

/-- **The runs behind a prefix** are those of the rest, that much further on. -/
theorem runs_append (l₁ l₂ : List α) (k : ℕ) : runs p (l₁ ++ l₂) (l₁.length + k) =
    (runs p l₂ k).map fun r => (l₁.length + r.1, l₁.length + r.2) := by
  have hscan : ∀ (q : α → Bool) (k : ℕ),
      Scan.scan q (l₁ ++ l₂) (l₁.length + k) = l₁.length + Scan.scan q l₂ k := by
    intro q k
    rw [Scan.scan, Scan.scan, Scan.scanned, Scan.scanned, List.drop_append, Nat.add_assoc,
      List.drop_of_length_le (Nat.le_add_right _ _), Nat.add_sub_cancel_left, List.nil_append]
  by_cases h : Scan.scan (fun a => !p a) l₂ k < l₂.length
  · have hlt : Scan.scan (fun a => !p a) (l₁ ++ l₂) (l₁.length + k) < (l₁ ++ l₂).length := by
      rw [hscan, List.length_append]
      omega
    have hi : k ≤ Scan.scan (fun a => !p a) l₂ k := le_scan
    have hj : Scan.scan (fun a => !p a) l₂ k ≤
        Scan.scan p l₂ (Scan.scan (fun a => !p a) l₂ k) := le_scan
    rw [runs_of_lt hlt, runs_of_lt h, hscan, hscan, Nat.add_assoc, runs_append, List.map_cons]
  · have hlt : ¬ Scan.scan (fun a => !p a) (l₁ ++ l₂) (l₁.length + k) < (l₁ ++ l₂).length := by
      rw [hscan, List.length_append]
      omega
    rw [runs_of_not_lt hlt, runs_of_not_lt h, List.map_nil]
termination_by l₂.length - k
decreasing_by omega

end Run
