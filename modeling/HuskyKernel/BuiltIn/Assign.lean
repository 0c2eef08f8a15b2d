import HuskyKernel.BuiltIn.Syntax

/-!
# BuiltIn/Assign — which entry an assignment writes

`parse_ident` returns a pointer into its static buffer, and `msh_execute` looks the target up only
after the right-hand side has been evaluated: the entry written is the one of the last identifier
mentioned (`stored_iff`).  And as the whole struct is copied, from `msh_init` on nothing that has
been stored can be read back (`readYourWrites_iff`).
-/

namespace HuskyKernel

open Wp Scan

/-! ## Assignments as they are written -/

/-- An assignment, with the blanks in front of its `=`. -/
structure Assign where
  target : Ident
  between : Blanks
  expr : Expr

def Assign.text (a : Assign) : List Byte :=
  a.target.text ++ (a.between.text ++ chr '=' :: a.expr.text)

namespace Msh

variable {h : Host} {s t u : Machine} {v : MshVar} {zs tail : List Byte}

theorem isIdent_of_isspace {c : Byte} (hc : isspace c = true) : isIdent c = false := by
  obtain rfl | rfl | rfl | rfl | rfl | rfl := isspace_cases hc <;> decide

/-- Behind the identifier a statement starts with, and the blanks there. -/
theorem named_text {n : Ident} (hr : (skipped s).rest = n.text ++ zs)
    (hz : isIdent (zs.headD 0) = false) : isalpha (skipped s).cur = true ∧
      (named s).rest = zs.dropWhile isspace ∧ (named s).identBuf = n.name := by
  obtain ⟨hrest, hbuf⟩ := rest_parsed hr hz
  refine ⟨?_, (rest_skipped _).trans (by rw [hrest]), hbuf⟩
  rw [cur_eq hr, headD_append isalpha_zero n.letter]
  exact n.letter

/-- Behind the `=` of an assignment. -/
theorem rhs_text {a : Assign} (hr : (skipped s).rest = a.text ++ tail) :
    isalpha (skipped s).cur = true ∧ (named s).cur = chr '=' ∧ (rhs s).rest = a.expr.text ++ tail ∧
      (rhs s).identBuf = a.target.name := by
  have hr' : (skipped s).rest
      = a.target.text ++ (a.between.text ++ chr '=' :: (a.expr.text ++ tail)) := by
    rw [hr, Assign.text]
    simp only [List.append_assoc, List.cons_append]
  have hz : isIdent ((a.between.text ++ chr '=' :: (a.expr.text ++ tail)).headD 0) = false := by
    cases hb : a.between.text with
    | nil => rfl
    | cons c cs => exact isIdent_of_isspace (a.between.blank c (by simp [hb]))
  obtain ⟨ha, hrest, hbuf⟩ := named_text hr' hz
  have heq : (named s).rest = chr '=' :: (a.expr.text ++ tail) := by
    rw [hrest, List.dropWhile_append_of_pos a.between.blank]
    rfl
  exact ⟨ha, cur_eq heq, rest_advance heq, hbuf⟩

/-! ## The entry written -/

/-- An entry holds the type and the bits of a value; the name is not looked at. -/
def Holds (e v : MshVar) : Prop := e.type = v.type ∧ e.val = v.val

/-- `v` has been stored in the entry of that name, or in a new one, and no other entry is changed.
-/
structure StoredUnder (name : List Byte) (v : MshVar) (s t : Machine) : Prop where
  value : Holds (t.vars (s.slot name)) v
  count : t.varCount = max s.varCount (s.slot name + 1)
  others : ∀ j < s.varCount, j ≠ s.slot name → t.vars j = s.vars j

/-- A store that succeeds writes the slot of the name in the buffer. -/
theorem assigned_slot (he : (assigned u v).hadError = false) :
    (assigned u v).vars = Function.update u.vars (u.slot u.identBuf) v ∧
      (assigned u v).varCount = max u.varCount (u.slot u.identBuf + 1) := by
  obtain ⟨i, hl, ha⟩ | ⟨hl, _, ha⟩ | ⟨_, _, ha⟩ := assigned_cases u v
  · have hi := (Machine.lookup_eq_some.mp hl).2.1
    rw [ha, Machine.slot, hl]
    exact ⟨rfl, (max_eq_left hi).symm⟩
  · rw [ha, Machine.slot, hl]
    exact ⟨rfl, (max_eq_right (Nat.le_succ _)).symm⟩
  · rw [ha] at he
    cases he

/-- A store into the slot of `name` is one under `name`. -/
theorem storedUnder_of_slot {name : List Byte}
    (hv : t.vars = Function.update s.vars (s.slot name) v)
    (hc : t.varCount = max s.varCount (s.slot name + 1)) : StoredUnder name v s t where
  value := by rw [hv, Function.update_self]; exact ⟨rfl, rfl⟩
  count := hc
  others j _ hj := by rw [hv, Function.update_of_ne hj]

/-- A store into another entry is one under `name` only by coincidence: `name` has the value
already, and the other entry is what is stored in it. -/
theorem storedUnder_iff_of_ne {name : List Byte} {k : ℕ} (hk : k < s.varCount)
    (hne : k ≠ s.slot name) (hv : t.vars = Function.update s.vars k v)
    (hc : t.varCount = s.varCount) : StoredUnder name v s t ↔
      s.slot name < s.varCount ∧ Holds (s.vars (s.slot name)) v ∧ s.vars k = v := by
  have hslot : t.vars (s.slot name) = s.vars (s.slot name) := by
    rw [hv, Function.update_of_ne hne.symm]
  constructor
  · rintro ⟨hval, hcount, hothers⟩
    rw [hslot] at hval
    refine ⟨by omega, hval, ?_⟩
    rw [← hothers k hk hne, hv, Function.update_self]
  · rintro ⟨hlt, hval, rfl⟩
    refine ⟨by rwa [hslot], by omega, fun j _ _ => ?_⟩
    rw [hv, Function.update_eq_self]

end Msh

/-! ## The frame law -/

/-- The right-hand side mentions no identifier, or mentions the target last. -/
def Assign.TargetLast (a : Assign) : Prop :=
  a.expr.lastIdent.getD a.target.name = a.target.name

namespace Msh

variable {h : Host} {s t u : Machine} {v : MshVar} {tail : List Byte}

/-- The target has the value already, and the last identifier's entry is the value, name and all. -/
def Coincides (a : Assign) (s : Machine) (v : MshVar) : Prop :=
  s.slot a.target.name < s.varCount ∧ Holds (s.vars (s.slot a.target.name)) v ∧
    s.vars (s.slot (a.expr.lastIdent.getD a.target.name)) = v

/-- An assignment that completes has stored the value of its right-hand side. -/
theorem Step.eq_assigned (hst : Step h s t) (ha : isalpha (skipped s).cur = true)
    (hc : (named s).cur = chr '=') (herr : t.hadError = false)
    (hev : evalExpr h (rhs s) = .ok v u) : u.hadError = false ∧ t = assigned u v := by
  cases hst.effect with
  | skip ha' => exact absurd (ha.symm.trans ha') Bool.noConfusion
  | name _ hc' => exact absurd hc hc'
  | fail _ _ _ he => exact absurd (he.symm.trans herr) Bool.noConfusion
  | store _ _ hev' he =>
    cases hev'.symm.trans hev
    exact ⟨he, rfl⟩

/-- The entry looked up is that of the last identifier mentioned. -/
theorem lookup_identBuf (a : Assign) (hr : (skipped s).rest = a.text ++ tail)
    (he : a.expr.Ends tail) (hev : evalExpr h (rhs s) = .ok v u) :
    u.lookup u.identBuf = s.lookup (a.expr.lastIdent.getD a.target.name) := by
  obtain ⟨ha, hc, hrest, hbuf⟩ := rhs_text hr
  have hafter := (wp_of_ok hev).mp (evalExpr_text h hrest he)
  rw [hafter.ident, hbuf, lookup_eq_of_frame (frame_value ha hc hev)]

/-- There is none only for a target that is new. -/
theorem targetLast_of_lookup (a : Assign) (hr : (skipped s).rest = a.text ++ tail)
    (he : a.expr.Ends tail) (hev : evalExpr h (rhs s) = .ok v u) (heu : u.hadError = false)
    (hnone : u.lookup u.identBuf = none) : a.TargetLast ∧ s.lookup a.target.name = none := by
  obtain ⟨ha, hc, hrest, _⟩ := rhs_text hr
  have hafter := (wp_of_ok hev).mp (evalExpr_text h hrest he)
  rw [lookup_identBuf a hr he hev] at hnone
  cases hm : a.expr.lastIdent with
  | none =>
    rw [hm, Option.getD_none] at hnone
    exact ⟨by rw [Assign.TargetLast, hm, Option.getD_none], hnone⟩
  | some m =>
    rw [hm, Option.getD_some, ← lookup_eq_of_frame (frame_rhs ha hc)] at hnone
    exact absurd hnone (hafter.found heu m hm)

/-- **The frame law of assignments holds exactly if the target is the last identifier mentioned**,
or nothing has to be changed. -/
theorem stored_iff (a : Assign) (hr : (skipped s).rest = a.text ++ tail) (he : a.expr.Ends tail)
    (hst : Step h s t) (herr : t.hadError = false) (hev : evalExpr h (rhs s) = .ok v u) :
    StoredUnder a.target.name v s t ↔ a.TargetLast ∨ Coincides a s v := by
  obtain ⟨ha, hc, _, _⟩ := rhs_text hr
  have hf : Frame s u := frame_value ha hc hev
  obtain ⟨heu, rfl⟩ := hst.eq_assigned ha hc herr hev
  obtain ⟨hv, hcount⟩ := assigned_slot herr
  have hslot : u.slot u.identBuf = s.slot (a.expr.lastIdent.getD a.target.name) := by
    rw [Machine.slot, lookup_identBuf a hr he hev, hf.varCount, Machine.slot]
  rw [hslot, hf.vars] at hv
  rw [hslot, hf.varCount] at hcount
  by_cases htl : a.TargetLast
  · rw [Assign.TargetLast] at htl
    rw [htl] at hv hcount
    exact iff_of_true (storedUnder_of_slot hv hcount) (.inl htl)
  · obtain ⟨m, hm⟩ : ∃ m, a.expr.lastIdent = some m := by
      refine Option.ne_none_iff_exists'.mp fun h0 => htl ?_
      rw [Assign.TargetLast, h0, Option.getD_none]
    rw [Assign.TargetLast, hm, Option.getD_some] at htl
    rw [hm, Option.getD_some] at hv hcount
    have hfound : s.lookup m ≠ none := fun hnone => by
      have hbuf : u.lookup u.identBuf = none := by
        rw [lookup_identBuf a hr he hev, hm, Option.getD_some, hnone]
      have hlast := (targetLast_of_lookup a hr he hev heu hbuf).1
      rw [Assign.TargetLast, hm, Option.getD_some] at hlast
      exact htl hlast
    have hk : s.slot m < s.varCount := Machine.slot_lt_iff.mpr hfound
    have hne : s.slot m ≠ s.slot a.target.name := fun heq => htl <| by
      rw [← a.expr.cstr_lastIdent m hm, ← a.target.cstr_name, Machine.slot_inj hfound heq]
    rw [max_eq_left hk] at hcount
    rw [storedUnder_iff_of_ne hk hne hv hcount, Assign.TargetLast, Coincides, hm, Option.getD_some]
    exact ⟨.inr, fun hor => hor.resolve_left htl⟩

/-- Where a value goes depends on the name and on the table alone. -/
theorem StoredUnder.congr {name : List Byte} {t' : Machine} (hst : StoredUnder name v s t)
    (hv : t'.vars = t.vars) (hc : t'.varCount = t.varCount) : StoredUnder name v s t' where
  value := hv ▸ hst.value
  count := hc.trans hst.count
  others := hv ▸ hst.others

/-- A table of two variables. -/
def twoVars (code : List Byte) : Machine :=
  { enter code Machine.boot with
    vars := fun i => ⟨str (if i = 0 then "x" else "y") ++ List.replicate 31 0, .int, 1 + i⟩
    varCount := 2 }

/-- `y = 1 + y`. -/
def incrementY : Assign where
  target := ⟨[chr 'y'], rfl, List.all_eq_true.mp rfl⟩
  between := .one
  expr := .op .one (.number ⟨[chr '1'], rfl, List.all_eq_true.mp rfl⟩) .one ⟨chr '+', rfl⟩
    (.last .one (.var ⟨[chr 'y'], rfl, List.all_eq_true.mp rfl⟩))

/-- `y = 1 + y` mentions its target last, and `y` becomes 3. -/
theorem stored_increment : ∃ t v, Step Host.bare (twoVars (str "y = 1 + y")) t ∧ v.val = 3 ∧
    StoredUnder [chr 'y'] v (twoVars (str "y = 1 + y")) t := by
  have heval : check (evalExpr Host.bare) (fun v _ => v.val = 3)
      (rhs (twoVars (str "y = 1 + y"))) = true := by decide +kernel
  have hstmt : check (plainStmt Host.bare) (fun _ t => t.hadError = false)
      (twoVars (str "y = 1 + y")).seen = true := by decide +kernel
  obtain ⟨v, u, hev, hv⟩ := of_check heval
  obtain ⟨_, t, hr, ht⟩ := of_check hstmt
  have hst : Step Host.bare (twoVars (str "y = 1 + y")) t := .of_plain (by decide +kernel) rfl hr
  have hends : incrementY.expr.Ends [] := ⟨rfl, rfl, rfl⟩
  have hrest : (skipped (twoVars (str "y = 1 + y"))).rest = incrementY.text ++ [] := by
    decide +kernel
  exact ⟨t, v, hst, of_decide_eq_true hv,
    (stored_iff incrementY hrest hends hst (of_decide_eq_true ht) hev).mpr (.inl rfl)⟩

/-- `x = y` leaves `x` as it was. -/
theorem not_stored_of_other_last : ¬ ∀ s t u v, TableOk s → s.varCount < 64 →
    s.rest = str "x = y" → Step Host.bare s t → t.hadError = false →
    evalExpr Host.bare (rhs s) = .ok v u → StoredUnder (str "x") v s t := by
  intro hall
  have heval : check (evalExpr Host.bare) (fun v _ => v.val = 2)
      (rhs (twoVars (str "x = y"))) = true := by decide +kernel
  have hstmt : check (plainStmt Host.bare) (fun _ t => t.hadError = false && (t.vars 0).val = 1)
      (twoVars (str "x = y")).seen = true := by decide +kernel
  have hslot : (twoVars (str "x = y")).slot (str "x") = 0 := by decide +kernel
  obtain ⟨v, u, hev, hv⟩ := of_check heval
  obtain ⟨_, t, hr, ht⟩ := of_check hstmt
  obtain ⟨herr, hval⟩ := Bool.and_eq_true_iff.mp ht
  have hst : Step Host.bare (twoVars (str "x = y")) t := .of_plain (by decide +kernel) rfl hr
  have hok : TableOk (twoVars (str "x = y")) := by
    refine ⟨by decide, ?_, ?_, ?_⟩ <;> decide +kernel
  have hx := (hall _ t u v hok (by decide) rfl hst (of_decide_eq_true herr) hev).value.2
  rw [hslot, of_decide_eq_true hval, of_decide_eq_true hv] at hx
  exact absurd hx (by decide)

/-! ## Reading back -/

/-- What a value stands for: the bytes of a string, the bits of anything else. -/
def meaning (s : Machine) (v : MshVar) : MshType × (Word ⊕ Option (List Byte)) :=
  (v.type, if v.type = .str then .inr (s.mem.cstr? v.val) else .inl v.val)

/-- Assignments run one by one from `msh_init` on; `σ` maps a name to the value last assigned to it
by a statement that completed. -/
inductive Assignments (h : Host) :
    (List Byte → Option (MshType × (Word ⊕ Option (List Byte)))) → Machine → Prop
  | init (s : Machine) : Assignments h (fun _ => none) (mshInit s)
  | done {σ s t u v} (hs : Assignments h σ s) (a : Assign) (hlen : a.target.text.length ≤ 31)
      {n : ℕ} (hr : mshExecute h n (a.text ++ [0]) s = .ok true t)
      (hev : evalExpr h (rhs (enter (a.text ++ [0]) s)) = .ok v u) :
      Assignments h (Function.update σ a.target.text (some (meaning u v))) t
  | failed {σ s t} (hs : Assignments h σ s) (a : Assign) {n : ℕ}
      (hr : mshExecute h n (a.text ++ [0]) s = .ok false t) : Assignments h σ t

/-- `eval_expr` on the text `n` gives a value that stands for `x`. -/
def ReadBack (h : Host) (s : Machine) (n : List Byte)
    (x : MshType × (Word ⊕ Option (List Byte))) : Prop :=
  ∃ v t, evalExpr h (enter (n ++ [0]) s) = .ok v t ∧ t.hadError = false ∧ meaning t v = x

/-- No name is found in a nameless table. -/
theorem Nameless.lookup (hs : Nameless s) (n : Ident) : s.lookup n.name = none := by
  refine Machine.lookup_eq_none.mpr fun i hi heq => ?_
  have hzero : (0 : Byte) ∈ (s.vars i).name := by
    rw [hs.name i hi]
    decide
  rw [cstr_bytes hzero, hs.name i hi, n.cstr_name] at heq
  have hletter := n.letter
  rw [Ident.name] at heq
  cases hn : n.text with
  | nil => rw [hn] at hletter; cases hletter
  | cons c cs => rw [hn] at heq; cases heq

theorem Nameless.execute {n : ℕ} {code : List Byte} {b : Bool} (hs : Nameless s)
    (hr : mshExecute h n code s = .ok b t) : Nameless t := by
  obtain ⟨l, t, hl, _, _, rfl⟩ := mshExecute_ok hr
  have ht : Nameless t := hl.keeps (fun _ _ hst hs => hs.effect hst.effect) ⟨hs.count, hs.name⟩
  exact ⟨ht.count, ht.name⟩

theorem Assignments.nameless {σ} (hs : Assignments h σ s) : Nameless s := by
  induction hs with
  | init s => exact ⟨Nat.zero_le _, fun _ hi => absurd hi (Nat.not_lt_zero _)⟩
  | done _ _ _ hr _ ih => exact ih.execute hr
  | failed _ _ hr ih => exact ih.execute hr

theorem Assignments.ident {σ} (hs : Assignments h σ s) {n : List Byte} (hn : σ n ≠ none) :
    ∃ m : Ident, m.text = n := by
  induction hs with
  | init s => exact absurd rfl hn
  | done _ a _ _ _ ih =>
    by_cases hna : n = a.target.text
    · exact ⟨a.target, hna.symm⟩
    · rw [Function.update_of_ne hna] at hn
      exact ih hn
  | failed _ _ _ ih => exact ih hn

/-- A name that is not in the table cannot be read. -/
theorem not_readBack {x} (n : Ident) (hn : s.lookup n.name = none) :
    ¬ ReadBack h s n.text x := by
  rintro ⟨v, t, hev, he, _⟩
  have hends : (Expr.last .none (.var n)).Ends [0] := ⟨rfl, rfl⟩
  exact ((wp_of_ok hev).mp (evalExpr_text h rfl hends)).found he n.name rfl hn

/-- **What has been assigned can be read back exactly if nothing has been assigned.** -/
theorem readYourWrites_iff {σ} (hs : Assignments h σ s) :
    (∀ n x, σ n = some x → ReadBack h s n x) ↔ ∀ n, σ n = none := by
  refine ⟨fun hall n => ?_, fun hnone n x hx => ?_⟩
  · by_contra hn
    obtain ⟨m, rfl⟩ := hs.ident hn
    obtain ⟨x, hx⟩ := Option.ne_none_iff_exists'.mp hn
    exact not_readBack m (hs.nameless.lookup m) (hall _ x hx)
  · rw [hnone] at hx
    cases hx

/-- `x=1`. -/
def assignX : Assign where
  target := ⟨[chr 'x'], rfl, List.all_eq_true.mp rfl⟩
  between := .none
  expr := .last .none (.number ⟨[chr '1'], rfl, List.all_eq_true.mp rfl⟩)

/-- `x=1` completes, so there is a name that cannot be read back. -/
theorem readYourWrites_assignX : ∃ σ s, Assignments Host.bare σ s ∧
    ¬ ∀ n x, σ n = some x → ReadBack Host.bare s n x := by
  have hcall : check (mshExecute Host.bare 2 (assignX.text ++ [0])) (fun b _ => b)
      (mshInit Machine.boot) = true := by decide +kernel
  have heval : check (evalExpr Host.bare) (fun _ _ => true)
      (rhs (enter (assignX.text ++ [0]) (mshInit Machine.boot))) = true := by decide +kernel
  obtain ⟨_, t, hr, rfl⟩ := of_check hcall
  obtain ⟨v, u, hev, _⟩ := of_check heval
  have hs := (Assignments.init Machine.boot).done assignX (by decide) hr hev
  refine ⟨_, t, hs, fun hall => ?_⟩
  have hx := (readYourWrites_iff hs).mp hall assignX.target.text
  rw [Function.update_self] at hx
  cases hx

/-- After `x=1`, evaluating `x` is an error. -/
theorem not_readBack_of_literal : ¬ ∀ σ s, Assignments Host.bare σ s →
    ∀ n x, σ n = some x → ReadBack Host.bare s n x := by
  intro hall
  have hcall : check (mshExecute Host.bare 2 (assignX.text ++ [0])) (fun b t => b &&
        check (evalExpr Host.bare) (fun _ w => w.hadError) (enter ([chr 'x'] ++ [0]) t))
      (mshInit Machine.boot) = true := by decide +kernel
  have heval : check (evalExpr Host.bare) (fun _ _ => true)
      (rhs (enter (assignX.text ++ [0]) (mshInit Machine.boot))) = true := by decide +kernel
  obtain ⟨b, t, hr, ht⟩ := of_check hcall
  obtain ⟨hb, hread⟩ := Bool.and_eq_true_iff.mp ht
  subst hb
  obtain ⟨v, u, hev, _⟩ := of_check heval
  obtain ⟨_, w, hx, hw⟩ := of_check hread
  have hs := (Assignments.init Machine.boot).done assignX (by decide) hr hev
  obtain ⟨_, w', hx', hw', _⟩ := hall _ t hs _ _ (Function.update_self ..)
  cases hx.symm.trans hx'
  exact Bool.noConfusion (hw.symm.trans hw')

end Msh

end HuskyKernel
