import HuskyKernel.BuiltIn.Run

/-!
# BuiltIn/Cursor — how far a program is read

Evaluation and the two kinds of identifier statement step over no NUL (`Frame.pc_bound`,
`Frame.reach_bound`).  The catch-all does: it skips blanks and then one character, whatever that is.
So a call stays inside its text exactly if no statement starts with nothing but blanks left
(`inText_iff`).
-/

namespace HuskyKernel

namespace Msh

open Wp Scan

variable {h : Host} {code : List Byte} {s₀ s t u : Machine}

/-! ## The end of the text -/

/-- The index of the NUL that ends the text. -/
def nulAt (code : List Byte) : ℕ := (cstr code).length

theorem nulAt_eq_scan (code : List Byte) : nulAt code = scan (fun c => c ≠ 0) code 0 :=
  (Nat.zero_add _).symm

theorem getD_nulAt (code : List Byte) : code.getD (nulAt code) 0 = 0 := by
  have hend := getD_scan (p := fun c : Byte => decide (c ≠ 0)) (d := 0) (l := code) (i := 0) rfl
  rw [← nulAt_eq_scan] at hend
  exact of_not_not (of_decide_eq_false hend)

theorem nulAt_le (hc : s.cur = 0) : nulAt s.code ≤ s.pc := by
  rw [nulAt_eq_scan]
  exact scan_le (d := 0) rfl (decide_eq_false (not_not.mpr hc)) (Nat.zero_le _)

/-! ## Staying inside -/

/-- The call `msh_execute(code)` from `s₀` never looks behind the end of its text: the cursor is
inside at every head of the main loop, and every read of the text up to the end of the call, whether
it returns or stops, is inside. -/
structure InText (h : Host) (code : List Byte) (s₀ : Machine) : Prop where
  head : ∀ s, Head h code s₀ s → s.pc ≤ nulAt code
  read : ∀ fuel, fuel ≠ 0 → wp (mshExecute h fuel code) (fun _ t => t.reach ≤ nulAt code)
    (fun _ t => t.reach ≤ nulAt code) s₀

/-- A head inside the text, that has been read no further. -/
def Inside (code : List Byte) (s : Machine) : Prop :=
  s.code = code ∧ s.pc ≤ nulAt code ∧ s.reach ≤ nulAt code

theorem Inside.enter (code : List Byte) (s₀ : Machine) : Inside code (enter code s₀) :=
  ⟨rfl, Nat.zero_le _, Nat.zero_le _⟩

/-- Evaluation stays inside. -/
theorem Inside.frame (hs : Inside code s) (hf : Frame s t) : Inside code t := by
  obtain ⟨rfl, hpc, hreach⟩ := hs
  exact ⟨hf.code, hf.pc_bound _ (getD_nulAt _) hpc,
    (hf.reach_bound _ (getD_nulAt _) hpc).trans (max_le hreach le_rfl)⟩

/-- **A statement that starts with more than blanks stays inside.** -/
theorem Inside.effect (hs : Inside code s) (hb : (skipped s).cur ≠ 0) (heff : Effect h s t) :
    Inside code t := by
  cases heff with
  | skip => exact (hs.frame (frame_skipped s)).frame (frame_advance hb)
  | name ha => exact hs.frame (frame_named ha)
  | fail ha hc hev => exact (hs.frame (frame_rhs ha hc)).frame ((frame_evalExpr h).ok hev)
  | store ha hc hev =>
    have hu := (hs.frame (frame_rhs ha hc)).frame ((frame_evalExpr h).ok hev)
    exact ⟨assigned_code.trans hu.1, assigned_pc.trans_le hu.2.1, assigned_reach.trans_le hu.2.2⟩

/-- A statement that starts with nothing but blanks leaves the cursor behind the NUL. -/
theorem step_of_blank (hc : s.cur ≠ 0) (he : s.hadError = false) (hb : (skipped s).cur = 0) :
    Step h s (stepped s) ∧ nulAt s.code < (stepped s).pc :=
  ⟨(Effect.skip (by rw [hb]; decide)).step hc he, Nat.lt_succ_of_le (nulAt_le hb)⟩

/-- **A call stays inside its text exactly if none of its statements starts with nothing but blanks
left.** -/
theorem inText_iff (h : Host) (code : List Byte) (s₀ : Machine) :
    InText h code s₀ ↔ ∀ s, Head h code s₀ s → ¬ Final s → (skipped s).cur ≠ 0 := by
  constructor
  · rintro hin s ⟨l, hl⟩ hfin hb
    obtain ⟨hc, he⟩ := not_not.mp (mt final_iff.mpr hfin)
    obtain ⟨hst, hlt⟩ := step_of_blank (h := h) hc he hb
    rw [code_of_steps hl] at hlt
    exact absurd (hin.head _ ⟨_, hl.snoc hst⟩) (Nat.not_le.mpr hlt)
  · intro hb
    have hhead (l : List (Machine × Machine)) (s : Machine)
        (hl : Steps (Step h) (enter code s₀) l s) : Inside code s := by
      refine hl.invariant (Inside.enter code s₀) fun p hp hst hin => ?_
      obtain ⟨_, ⟨l₁, hl₁⟩, _⟩ := hl.of_mem hp
      exact hin.effect (hb _ ⟨l₁, hl₁⟩ fun hf => hf.not_step _ hst) hst.effect
    refine ⟨fun s ⟨l, hl⟩ => (hhead l s hl).2.1, fun fuel hfuel => ?_⟩
    refine wp_intro (fun b u hr => ?_) fun e u hr => ?_
    · obtain ⟨l, t, hl, _, _, rfl⟩ := mshExecute_ok hr
      exact max_le (hhead l t hl).2.2 (hhead l t hl).2.1
    · obtain ⟨l, t, hl, rfl | ⟨hc, he, hst⟩⟩ := mshExecute_error hfuel hr
      · exact (hhead l _ hl).2.2
      · obtain ⟨ha, heq, hev⟩ := (wp_of_error hst).mp wp_effect
        exact (((hhead l t hl).frame (frame_rhs ha heq)).frame ((frame_evalExpr h).error hev).2).2.2

/-- A `(` with a blank behind it: the first statement skips the `(`, the second one the blank and
the NUL. -/
theorem not_inText_trailing_blank : ¬ InText Host.bare (str "( " ++ [0]) Machine.boot := by
  intro hin
  have hrun : check (mshExecute Host.bare 4 (str "( " ++ [0])) (fun _ t => t.reach = 3)
      Machine.boot = true := by decide +kernel
  obtain ⟨_, t, hr, ht⟩ := of_check hrun
  have hreach := (wp_of_ok hr).mp (hin.read 4 (by decide))
  rw [of_decide_eq_true ht] at hreach
  exact absurd hreach (by decide)

end Msh

end HuskyKernel
