import HuskyKernel.BuiltIn.Meaning

/-!
# BuiltIn/Conversions — the operands of an operator, converted

The operands of an operator are brought to one type: FLOAT wins over INT, INT over the rest, and two
other types are left alone.  A string that becomes a number is read for that, so a conversion stops
if it has no end; else it has the bits its text has (`wp_unify`), and nothing but the log changes.
-/

namespace HuskyKernel

open Wp Msh

/-! ## Values as they are read -/

/-- If the value is a string, it has an end. -/
def Readable (m : Mem) (v : MshVar) : Prop := v.type = .str → (m.cstr? v.val).isSome

instance {m : Mem} {v : MshVar} : Decidable (Readable m v) := inferInstanceAs (Decidable (_ → _))

/-- A value, with the string it points to. -/
def MshVar.read (m : Mem) (v : MshVar) : Val := ⟨v, (m.cstr? v.val).getD []⟩

/-- A conversion to a number hands the string to `atoi` or `atof`, if the value is one. -/
def MshVar.strArgs (v : MshVar) : List Event :=
  if v.type = .str then [.strArg v.type v.val] else []

/-- The strings two operands are converted from, the latest first. -/
def converted (m : Mem) (left right : MshVar) : List Event :=
  if commonType left.type right.type = .int ∨ commonType left.type right.type = .float then
    (if Readable m left then right.strArgs else []) ++ left.strArgs
  else []

/-! ## Conversions -/

section Conversions

variable {h : Host} {s : Machine} {v left right x y : MshVar} {c : MshType}

theorem wp_cstrAt {a : Word} {Q : List Byte → Machine → Prop} {E : Stop → Machine → Prop} :
    wp (cstrAt a) Q E s ↔
      (∀ bs, s.mem.cstr? a = some bs → Q bs s) ∧ (s.mem.cstr? a = none → E .noNul s) := by
  rw [wp, cstrAt]
  cases s.mem.cstr? a <;> simp

/-- Two operands of one type are not converted. -/
theorem converted_of_eq {m : Mem} (heq : left.type = right.type) : converted m left right = [] := by
  have hc : commonType left.type right.type = left.type := by
    rw [commonType, if_neg (not_not.mpr heq)]
  rw [converted, hc]
  split_ifs with hnum hread
  · have hl : left.strArgs = [] := if_neg fun hstr => by simp [hstr] at hnum
    have hr : right.strArgs = [] := if_neg fun hstr => by simp [heq, hstr] at hnum
    rw [hl, hr, List.nil_append]
  · have hl : left.strArgs = [] := if_neg fun hstr => by simp [hstr] at hnum
    rw [hl, List.nil_append]
  · rfl

/-- A conversion to a number reads the string, if it is one. -/
theorem wp_convertVar {target : MshType} (ht : target = .int ∨ target = .float) :
    wp (convertVar h v target) (fun x t => Readable s.mem v ∧
        x.val = (v.read s.mem).as h target ∧ t = { s with log := v.strArgs ++ s.log })
      (fun e t => (e = .noNul ∧ ¬ Readable s.mem v) ∧ t.log = v.strArgs ++ s.log) s := by
  by_cases hstr : v.type = .str
  · have hread {bs : List Byte} (hbs : s.mem.cstr? v.val = some bs) : Readable s.mem v :=
      fun _ => Option.isSome_iff_exists.mpr ⟨bs, hbs⟩
    have hstop (hnone : s.mem.cstr? v.val = none) : ¬ Readable s.mem v := fun hends => by
      have hsome := hends hstr
      rw [hnone] at hsome
      cases hsome
    have hargs : v.strArgs = [.strArg .str v.val] := by rw [MshVar.strArgs, if_pos hstr, hstr]
    rw [hargs]
    unfold convertVar
    rcases ht with rfl | rfl
    all_goals
      simp only [hstr, wp_bind, wp_emit]
      refine wp_cstrAt.mpr ⟨fun bs hbs => ⟨hread hbs, ?_, rfl⟩, fun hnone => ?_⟩
      · simp [Val.as, MshVar.read, hstr, show s.mem.cstr? v.val = some bs from hbs]
      · exact ⟨⟨rfl, hstop hnone⟩, rfl⟩
  · have hread : Readable s.mem v := fun h => absurd h hstr
    have hlog : s = { s with log := v.strArgs ++ s.log } := by rw [MshVar.strArgs, if_neg hstr]; rfl
    unfold convertVar
    rcases ht with rfl | rfl
    all_goals
      cases hty : v.type
      case str => exact absurd hty hstr
      all_goals
        refine ⟨hread, ?_, hlog⟩
        simp [Val.as, MshVar.read, hty]

/-- The operands of an operation: converted if their common type is a number's, else as they are. -/
structure Unified (h : Host) (l r : Val) (c : MshType) (x y : MshVar) : Prop where
  common : c = commonType l.var.type r.var.type
  number : c = .int ∨ c = .float → x.val = l.as h c ∧ y.val = r.as h c
  other : c ≠ .int → c ≠ .float → x = l.var ∧ y = r.var

/-- What the operands of an operation have become. -/
structure Unifies (h : Host) (m : Mem) (left right : MshVar) (c : MshType) (x y : MshVar) : Prop
    extends Unified h (left.read m) (right.read m) c x y where
  readable : c = .int ∨ c = .float → Readable m left ∧ Readable m right

/-- Two operands of one type are left as they are. -/
theorem unifies_of_eq {m : Mem} (heq : left.type = right.type) :
    Unifies h m left right left.type left right := by
  have hc : left.type = commonType left.type right.type := by
    rw [commonType, if_neg (not_not.mpr heq)]
  have hread (hnum : left.type = .int ∨ left.type = .float) : left.type ≠ .str := by
    rcases hnum with h' | h' <;> rw [h'] <;> decide
  refine ⟨⟨hc, fun hnum => ?_, fun _ _ => ⟨rfl, rfl⟩⟩, fun hnum => ?_⟩
  · have hright := Val.as_type (h := h) (right.read m)
    rw [show (right.read m).var.type = left.type from heq.symm] at hright
    exact ⟨(Val.as_type (h := h) (left.read m)).symm, hright.symm⟩
  · exact ⟨fun hstr => absurd hstr (hread hnum), fun hstr => absurd (heq.trans hstr) (hread hnum)⟩

/-- And so are two of which none is a number. -/
theorem unifies_of_not_number {m : Mem} (hc : left.type = commonType left.type right.type)
    (hnumber : ¬ (left.type = .int ∨ left.type = .float)) :
    Unifies h m left right left.type left right :=
  ⟨⟨hc, fun hnum => absurd hnum hnumber, fun _ _ => ⟨rfl, rfl⟩⟩, fun hnum => absurd hnum hnumber⟩

/-- **The operands are unified**, unless one of them has to be converted and has no end. -/
theorem wp_unify : wp (unify h left right) (fun p t =>
      Unifies h s.mem left right p.1 p.2.1 p.2.2 ∧
      t = { s with log := converted s.mem left right ++ s.log })
    (fun e t => (e = .noNul ∧
      (commonType left.type right.type = .int ∨ commonType left.type right.type = .float) ∧
      ¬ (Readable s.mem left ∧ Readable s.mem right)) ∧
      t.log = converted s.mem left right ++ s.log) s := by
  have hpair {target : MshType} (ht : target = .int ∨ target = .float)
      (hc : commonType left.type right.type = target) : wp (do
        let x ← convertVar h left target
        let y ← convertVar h right target
        return (target, x, y)) (fun p t => Unifies h s.mem left right p.1 p.2.1 p.2.2 ∧
          t = { s with log := converted s.mem left right ++ s.log }) (fun e t => (e = .noNul ∧
          (commonType left.type right.type = .int ∨ commonType left.type right.type = .float) ∧
          ¬ (Readable s.mem left ∧ Readable s.mem right)) ∧
          t.log = converted s.mem left right ++ s.log) s := by
    rw [converted, hc, if_pos ht]
    refine wp_bind.mpr (wp_mono (wp_convertVar ht) (fun x t hx => wp_bind.mpr ?_)
      fun e t hstop => ⟨⟨hstop.1.1, ht, fun hread => hstop.1.2 hread.1⟩, ?_⟩)
    · obtain ⟨hleft, hx, rfl⟩ := hx
      rw [if_pos hleft, List.append_assoc]
      refine wp_mono (wp_convertVar ht) (fun y t hy => ?_)
        fun e t hstop => ⟨⟨hstop.1.1, ht, fun hread => hstop.1.2 hread.2⟩, hstop.2⟩
      obtain ⟨hright, hy, rfl⟩ := hy
      refine ⟨⟨⟨hc.symm, fun _ => ⟨hx, hy⟩, fun hi hf => ?_⟩, fun _ => ⟨hleft, hright⟩⟩, rfl⟩
      exact absurd ht (not_or.mpr ⟨hi, hf⟩)
    · rw [if_neg hstop.1.2]
      exact hstop.2
  rw [unify, wp_ite]
  refine ⟨fun hne => ?_, fun heq => ?_⟩
  · rw [wp_ite]
    refine ⟨fun hf => hpair (Or.inr rfl) ?_, fun hf => ?_⟩
    · rw [commonType, if_pos hne, if_pos hf]
    rw [wp_ite]
    refine ⟨fun hi => hpair (Or.inl rfl) ?_, fun hi => ?_⟩
    · rw [commonType, if_pos hne, if_neg hf, if_pos hi]
    have hc : left.type = commonType left.type right.type := by
      rw [commonType, if_pos hne, if_neg hf, if_neg hi]
    have hnumber : ¬ (left.type = .int ∨ left.type = .float) :=
      not_or.mpr ⟨(not_or.mp hi).1, (not_or.mp hf).1⟩
    refine ⟨unifies_of_not_number hc hnumber, ?_⟩
    rw [converted, ← hc, if_neg hnumber]
    rfl
  · refine ⟨unifies_of_eq (not_not.mp heq), ?_⟩
    rw [converted_of_eq (not_not.mp heq)]
    rfl

end Conversions

end HuskyKernel
