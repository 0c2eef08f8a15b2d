import HuskyKernel.BuiltIn.Names
import HuskyKernel.BuiltIn.Programs

/-!
# BuiltIn/Calculator — what the shell can do, from `msh_init` on

From `msh_init` on no entry of the table ever has a name, so no variable is ever found, and every
assignment takes a new entry.  Hence a text is run to its end exactly if each of its assignments has
a value on an empty table, and there are entries left for all of them (`calculator`): which program
it is, and what has been run before, does not matter otherwise.
-/

namespace HuskyKernel

open Wp Scan Msh

/-- No entry has a name. -/
structure Env.Nameless (a : Env) : Prop where
  count : a.varCount ≤ 64
  name : ∀ i < a.varCount, (a.vars i).var.name = MshVar.zero.name

/-- An empty table, and nothing done; `null` is the string at NULL. -/
def Env.blank (null : List Byte) : Env where
  vars _ := ⟨MshVar.zero, []⟩
  varCount := 0
  top := 0
  hadError := false
  identBuf := []
  null := null
  divisions := []

/-- The phrase has a value on an empty table: no variable, no string that is not closed, no division
by zero, and none the processor traps on. -/
def Phrase.Sound (h : Host) (null : List Byte) (f : Phrase) : Prop :=
  (f.value h (.blank null)).2.hadError = false ∧ (f.value h (.blank null)).2.Safe

/-- The right-hand side of an assignment. -/
def Sentence.phrase? : Sentence → Option Phrase
  | assign _ _ _ f _ => some f
  | _ => none

/-- The right-hand sides in a text. -/
def phrases (code : List Byte) : List Phrase := (program code).filterMap Sentence.phrase?

variable {h : Host} {a b : Env} {l r l' r' : Val} {f : Phrase}

/-! ## Nothing is found -/

theorem Ident.name_ne_nil (n : Ident) : n.name ≠ [] := by
  have htext : n.text ≠ [] := by
    intro hnil
    have hletter := n.letter
    rw [hnil] at hletter
    cases hletter
  rw [Ident.name, Ne, List.take_eq_nil_iff]
  exact not_or.mpr ⟨by decide, htext⟩

/-- **No variable is found.** -/
theorem Env.Nameless.lookup (ha : a.Nameless) (n : Ident) : a.lookup n.name = none := by
  rw [Env.lookup, List.find?_range_eq_none]
  intro i hi
  have hempty : cstr (a.vars i).var.bytes = [] := by
    rw [MshVar.bytes, ha.name i hi]
    rfl
  rw [Bool.not_eq_true', decide_eq_false_iff_not, strcmp_eq_zero_iff, hempty, n.cstr_name]
  exact n.name_ne_nil.symm

theorem Env.Nameless.evolves (ha : a.Nameless) (h : a.Evolves b) : b.Nameless := by
  refine ⟨h.varCount ▸ ha.count, fun i hi => ?_⟩
  rw [h.vars]
  exact ha.name i (h.varCount ▸ hi)

theorem Env.nameless_blank (null : List Byte) : (Env.blank null).Nameless :=
  ⟨Nat.zero_le _, fun _ hi => absurd hi (Nat.not_lt_zero _)⟩

/-! ## The same on every table -/

/-- The same error; and without one the same value, by the same divisions. -/
structure Even (a b : Env) (r r' : Val × Env) : Prop where
  hadError : r.2.hadError = r'.2.hadError
  value : r.2.hadError = false → r.1.Alike r'.1
  divisions : r.2.hadError = false →
    ∃ d, r.2.divisions = d ++ a.divisions ∧ r'.2.divisions = d ++ b.divisions

/-- Nothing has been divided. -/
theorem Even.of_divisions {r r' : Val × Env} (herr : r.2.hadError = r'.2.hadError)
    (hval : r.2.hadError = false → r.1.Alike r'.1) (hd : r.2.divisions = a.divisions)
    (hd' : r'.2.divisions = b.divisions) : Even a b r r' :=
  ⟨herr, hval, fun _ => ⟨[], hd, hd'⟩⟩

theorem Even.of_error {r r' : Val × Env} (herr : r.2.hadError = true)
    (herr' : r'.2.hadError = true) : Even a b r r' :=
  ⟨herr.trans herr'.symm, fun he => absurd (herr.symm.trans he) Bool.noConfusion,
    fun he => absurd (herr.symm.trans he) Bool.noConfusion⟩

theorem Prim.value_even (p : Prim) (ha : a.Nameless) (hb : b.Nameless) (hnull : a.null = b.null)
    (herr : a.hadError = b.hadError) : Even a b (p.value h a) (p.value h b) := by
  cases p with
  | number d => exact .of_divisions herr (fun _ => .refl _) rfl rfl
  | string q =>
    exact .of_divisions herr (fun _ => ⟨rfl, rfl, fun hne => absurd rfl hne, rfl⟩) rfl rfl
  | var n =>
    have hnone {c : Env} (hc : c.Nameless) :
        Env.lookup { c with identBuf := n.name } n.name = none :=
      (hc.evolves (c.evolves_identBuf n.name)).lookup n
    rw [value, value, Env.read_none (hnone ha), Env.read_none (hnone hb)]
    exact .of_error rfl rfl
  | empty => exact .of_divisions herr (fun _ => ⟨rfl, rfl, fun _ => rfl, hnull⟩) rfl rfl

theorem Op.apply_even (o : Op) (hl : l.Alike l') (hr : r.Alike r')
    (herr : a.hadError = b.hadError) : Even a b (o.apply h l r a) (o.apply h l' r' b) := by
  rw [apply, apply, result_eq o hl hr, ← hl.type, ← hr.type]
  cases hres : o.result h l r with
  | number w => exact .of_divisions herr (fun _ => ⟨hl.name, rfl, fun _ => rfl, hl.text⟩) rfl rfl
  | quotient x y =>
    exact ⟨herr, fun _ => ⟨hl.name, rfl, fun _ => rfl, hl.text⟩, fun _ => ⟨[(x, y)], rfl, rfl⟩⟩
  | text bs =>
    have hc := (common_of_text hres).1
    exact .of_divisions herr (fun _ => ⟨hl.name, rfl, fun hne => absurd hc hne, rfl⟩) rfl rfl
  | nothing =>
    refine .of_divisions herr (fun _ => ⟨hl.name, rfl, fun hne => hl.val fun hs => hne ?_,
      hl.text⟩) rfl rfl
    exact (common_of_nothing hres).trans hs
  | error => exact .of_error rfl rfl

/-- **A phrase has the same value on every table without names** — induction on the phrase. -/
theorem Phrase.value_even (f : Phrase) {a b : Env} (ha : a.Nameless) (hb : b.Nameless)
    (hnull : a.null = b.null) (herr : a.hadError = b.hadError) :
    Even a b (f.value h a) (f.value h b) := by
  induction f generalizing a b with
  | last _ p => exact p.value_even ha hb hnull herr
  | unclosed _ _ => exact .of_error rfl rfl
  | op _ p _ o f ih =>
    have hp := p.value_even (h := h) ha hb hnull herr
    have hpa := p.evolves_value (h := h) a
    have hpb := p.evolves_value (h := h) b
    have hf := ih (ha.evolves hpa) (hb.evolves hpb) (hpa.null.trans (hnull.trans hpb.null.symm))
      hp.hadError
    cases hfe : (f.value h (p.value h a).2).2.hadError with
    | true =>
      have hfe' := hf.hadError.symm.trans hfe
      exact .of_error ((o.evolves_apply _ _ _).hadError hfe) ((o.evolves_apply _ _ _).hadError hfe')
    | false =>
      have hpe : (p.value h a).2.hadError = false := Bool.eq_false_iff.mpr fun hpe =>
        Bool.noConfusion (hfe.symm.trans ((f.evolves_value _).hadError hpe))
      have ho := o.apply_even (h := h) (hp.value hpe) (hf.value hfe) hf.hadError
      obtain ⟨d, hd, hd'⟩ := hp.divisions hpe
      obtain ⟨d₁, hd₁, hd₁'⟩ := hf.divisions hfe
      refine ⟨ho.hadError, ho.value, fun hoe => ?_⟩
      obtain ⟨d₂, hd₂, hd₂'⟩ := ho.divisions hoe
      refine ⟨d₂ ++ (d₁ ++ d), hd₂.trans ?_, hd₂'.trans ?_⟩
      · rw [hd₁, hd]
        simp only [List.append_assoc]
      · rw [hd₁', hd']
        simp only [List.append_assoc]

/-- What is in the buffer of `parse_ident` is an identifier. -/
theorem Phrase.identBuf_value (f : Phrase) {a : Env} {n : Ident} (hn : a.identBuf = n.name) :
    ∃ n : Ident, (f.value h a).2.identBuf = n.name := by
  have hprim (p : Prim) {a : Env} {n : Ident} (hn : a.identBuf = n.name) :
      ∃ n : Ident, (p.value h a).2.identBuf = n.name := by
    cases p with
    | number | empty => exact ⟨n, hn⟩
    | string q => exact ⟨n, hn⟩
    | var m =>
      refine ⟨m, ?_⟩
      rw [Prim.value, Env.read]
      split
      · rw [Val.copy]
        split <;> rfl
      · rfl
  induction f generalizing a n with
  | last _ p => exact hprim p hn
  | unclosed _ _ => exact ⟨n, hn⟩
  | op _ p _ o f ih =>
    obtain ⟨m, hm⟩ := hprim p hn
    obtain ⟨m', hm'⟩ := ih hm
    exact ⟨m', (o.identBuf_apply _ _ _).trans hm'⟩

/-- A value has no name either. -/
theorem Phrase.name_value (f : Phrase) {a : Env} (ha : a.Nameless) :
    (f.value h a).1.var.name = MshVar.zero.name := by
  have hprim (p : Prim) {a : Env} (ha : a.Nameless) :
      (p.value h a).1.var.name = MshVar.zero.name := by
    cases p with
    | number | empty => rfl
    | string q => rfl
    | var n => rw [Prim.value, Env.read_none ((ha.evolves (a.evolves_identBuf n.name)).lookup n)]
  induction f generalizing a with
  | last _ p => exact hprim p ha
  | unclosed _ _ => rfl
  | op _ p _ o f ih =>
    have hname (l r : Val) (b : Env) : (o.apply h l r b).1.var.name = l.var.name := by
      rw [Op.apply]
      cases o.result h l r <;> rfl
    exact (hname _ _ _).trans (hprim p ha)

/-! ## Sentences -/

/-- From `a` to `b` the values of `fs` have been stored, behind what was in the table. -/
structure Env.Appends (h : Host) (fs : List Phrase) (a b : Env) : Prop where
  null : b.null = a.null
  nameless : b.Nameless
  count : b.varCount = a.varCount + fs.length
  old : ∀ i < a.varCount, b.vars i = a.vars i
  new : ∀ i f, fs[i]? = some f →
    (b.vars (a.varCount + i)).Alike (f.value h (.blank a.null)).1

theorem Env.Appends.refl (ha : a.Nameless) : a.Appends h [] a :=
  ⟨rfl, ha, rfl, fun _ _ => rfl, fun _ _ hf => by cases hf⟩

theorem Env.Appends.trans {c : Env} {fs gs : List Phrase} (hab : a.Appends h fs b)
    (hbc : b.Appends h gs c) : a.Appends h (fs ++ gs) c := by
  refine ⟨hbc.null.trans hab.null, hbc.nameless, ?_, fun i hi => ?_, fun i f hf => ?_⟩
  · rw [hbc.count, hab.count, List.length_append, Nat.add_assoc]
  · rw [hbc.old i (by rw [hab.count]; omega), hab.old i hi]
  · rcases Nat.lt_or_ge i fs.length with hi | hi
    · rw [List.getElem?_append_left hi] at hf
      rw [hbc.old _ (by rw [hab.count]; omega)]
      exact hab.new i f hf
    · rw [List.getElem?_append_right hi] at hf
      have hnew := hbc.new _ f hf
      rw [hab.null, hab.count, show a.varCount + fs.length + (i - fs.length) = a.varCount + i by
        omega] at hnew
      exact hnew

theorem Env.safe_append {d e : List (Word × Word)} (hd : a.divisions = d ++ e)
    (he : ∀ x ∈ e, x ≠ (BitVec.intMin 32, -1)) :
    a.Safe ↔ ∀ x ∈ d, x ≠ (BitVec.intMin 32, -1) := by
  rw [Env.Safe, hd, List.forall_mem_append]
  exact and_iff_left he

/-- Where a value is stored: in a new entry, if there is one. -/
theorem Env.assigned_nameless (ha : a.Nameless) {n : Ident} (hn : a.identBuf = n.name) (v : Val) :
    a.assigned v = if a.varCount < 64 then
      { a with vars := Function.update a.vars a.varCount v, varCount := a.varCount + 1 }
    else a.fail := by
  rw [Env.assigned, hn, ha.lookup n]

/-- **An assignment succeeds exactly if it has a value on an empty table and there is an entry
left**, and then it stores the value there. -/
theorem Sentence.exec_assign (b b' b'' : Blanks) (n : Ident) (ha : a.Nameless)
    (herr : a.hadError = false) (hsafe : a.Safe) :
    (((assign b n b' f b'').exec h a).hadError = false ∧ ((assign b n b' f b'').exec h a).Safe ↔
      f.Sound h a.null ∧ a.varCount < 64) ∧
    (((assign b n b' f b'').exec h a).hadError = false →
      a.Appends h [f] ((assign b n b' f b'').exec h a)) := by
  have heven : Even _ _ (rhs h n f a) (f.value h (.blank a.null)) :=
    f.value_even (ha.evolves (a.evolves_identBuf n.name)) (Env.nameless_blank a.null) rfl herr
  have hevolves : a.Evolves (rhs h n f a).2 := (a.evolves_identBuf n.name).trans (f.evolves_value _)
  have hexec : (assign b n b' f b'').exec h a = if (rhs h n f a).2.hadError then (rhs h n f a).2
      else (rhs h n f a).2.assigned (rhs h n f a).1 := rfl
  obtain ⟨m, hm⟩ := f.identBuf_value (h := h) (a := { a with identBuf := n.name }) (n := n) rfl
  have hnameless := ha.evolves hevolves
  rw [hexec, Phrase.Sound, ← heven.hadError]
  cases he : (rhs h n f a).2.hadError with
  | true => simp [he]
  | false =>
    obtain ⟨d, hd, hd'⟩ := heven.divisions he
    have hsound : (rhs h n f a).2.Safe ↔ (f.value h (.blank a.null)).2.Safe :=
      (Env.safe_append hd hsafe).trans
        (Env.safe_append hd' fun _ hx => absurd hx List.not_mem_nil).symm
    rw [if_neg Bool.false_ne_true, Env.assigned_nameless hnameless hm, hevolves.varCount]
    by_cases hroom : a.varCount < 64
    · rw [if_pos hroom]
      refine ⟨⟨fun h => ⟨⟨rfl, hsound.mp h.2⟩, hroom⟩, fun h => ⟨he, hsound.mpr h.1.2⟩⟩,
        fun _ => ?_⟩
      refine ⟨hevolves.null, ⟨hroom, fun i hi => ?_⟩, rfl, fun i hi => ?_, fun i g hg => ?_⟩
      · by_cases hi' : i = a.varCount
        · rw [hi']
          dsimp only
          rw [Function.update_self]
          exact f.name_value (ha.evolves (a.evolves_identBuf n.name))
        · dsimp only
          rw [Function.update_of_ne hi']
          refine hnameless.name i ?_
          rw [hevolves.varCount]
          dsimp only at hi
          omega
      · dsimp only
        rw [Function.update_of_ne hi.ne, hevolves.vars]
      · obtain rfl : i = 0 := by
          have hlt := (List.getElem?_eq_some_iff.mp hg).1
          rw [List.length_singleton] at hlt
          omega
        obtain rfl : f = g := Option.some.inj hg
        dsimp only
        rw [Nat.add_zero, Function.update_self]
        exact heven.value he
    · rw [if_neg hroom]
      refine ⟨iff_of_false (fun h => ?_) fun h => hroom h.2, fun h => ?_⟩
      · exact absurd h.1 Bool.noConfusion
      · exact absurd h Bool.noConfusion

/-- **A sentence succeeds exactly if it is no assignment or one that does.** -/
theorem Sentence.exec_ok_iff (c : Sentence) (ha : a.Nameless) (herr : a.hadError = false)
    (hsafe : a.Safe) :
    ((c.exec h a).hadError = false ∧ (c.exec h a).Safe ↔
      ∀ f ∈ c.phrase?, f.Sound h a.null ∧ a.varCount < 64) ∧
    ((c.exec h a).hadError = false → a.Appends h c.phrase?.toList (c.exec h a)) := by
  cases c with
  | skip =>
    exact ⟨iff_of_true ⟨herr, hsafe⟩ fun _ hf => absurd hf (Option.not_mem_none _),
      fun _ => .refl ha⟩
  | name b n b' =>
    refine ⟨iff_of_true ⟨herr, hsafe⟩ fun _ hf => absurd hf (Option.not_mem_none _),
      fun _ => ?_⟩
    exact ⟨rfl, ⟨ha.count, ha.name⟩, rfl, fun _ _ => rfl, fun _ _ hf => by cases hf⟩
  | assign b n b' f b'' =>
    obtain ⟨hiff, happends⟩ := exec_assign (h := h) (f := f) b b' b'' n ha herr hsafe
    exact ⟨hiff.trans ⟨fun hf g hg => Option.some.inj hg ▸ hf, fun hall => hall f rfl⟩, happends⟩

/-- **A run of sentences succeeds exactly if every assignment does** — induction on them. -/
theorem Env.runAll_ok_iff (cs : List Sentence) (ha : a.Nameless) (herr : a.hadError = false)
    (hsafe : a.Safe) :
    ((runAll h cs a).hadError = false ∧ (runAll h cs a).Safe ↔
      (∀ f ∈ cs.filterMap Sentence.phrase?, f.Sound h a.null) ∧
        a.varCount + (cs.filterMap Sentence.phrase?).length ≤ 64) ∧
    ((runAll h cs a).hadError = false ∧ (runAll h cs a).Safe →
      a.Appends h (cs.filterMap Sentence.phrase?) (runAll h cs a)) := by
  induction cs generalizing a with
  | nil =>
    exact ⟨iff_of_true ⟨herr, hsafe⟩ ⟨fun _ hf => absurd hf List.not_mem_nil, ha.count⟩,
      fun _ => .refl ha⟩
  | cons c cs ih =>
    obtain ⟨hiff, happends⟩ := c.exec_ok_iff (h := h) ha herr hsafe
    have hphrases : (c :: cs).filterMap Sentence.phrase? =
        c.phrase?.toList ++ cs.filterMap Sentence.phrase? := by
      rw [List.filterMap_cons]
      cases c.phrase? <;> rfl
    rw [hphrases, List.length_append, List.forall_mem_append, runAll]
    by_cases hok : (c.exec h a).hadError = false ∧ (c.exec h a).Safe
    · have hfirst := happends hok.1
      obtain ⟨hrest, hlater⟩ := ih hfirst.nameless hok.1 hok.2
      have hsound : ∀ f ∈ c.phrase?.toList, f.Sound h a.null := fun f hf =>
        (hiff.mp hok f (Option.mem_toList.mp hf)).1
      rw [hok.1, if_neg Bool.false_ne_true, hrest, hfirst.null, hfirst.count, Nat.add_assoc]
      refine ⟨and_congr_left' (and_iff_right hsound).symm, fun hrun => ?_⟩
      refine hfirst.trans (hlater (hrest.mpr ?_))
      rwa [hfirst.null, hfirst.count, Nat.add_assoc]
    · have hfails : ¬ ((if (c.exec h a).hadError = true then c.exec h a
          else runAll h cs (c.exec h a)).hadError = false ∧
          Env.Safe (if (c.exec h a).hadError = true then c.exec h a
            else runAll h cs (c.exec h a))) := by
        intro hrun
        split_ifs at hrun with he
        · exact hok hrun
        · exact hok ⟨Bool.eq_false_iff.mpr he, (runAll_grows cs _).safe hrun.2⟩
      refine ⟨iff_of_false hfails fun hall => hok (hiff.mpr fun f hf => ⟨?_, ?_⟩),
        fun hrun => absurd hrun hfails⟩
      · exact hall.1.1 f (Option.mem_toList.mpr hf)
      · have hlen := List.length_pos_of_mem (Option.mem_toList.mpr hf)
        omega

/-! ## Calls -/

/-- Calls of `msh_execute`, whatever the texts, from `msh_init` on: with a NUL at address 0, and as
long as the heap lasts. -/
inductive Lasting (h : Host) : Machine → Prop
  | init {s : Machine} (h0 : s.mem 0 = 0) : Lasting h (mshInit s)
  | call {s t : Machine} {code : List Byte} {n : ℕ} {b : Bool} (hs : Lasting h s)
      (hn : code.length < n) (hfit : (s.env.execute h code).top ≤ heapSize.toNat)
      (hr : mshExecute h n code s = .ok b t) : Lasting h t

/-- From `s` to `t` the values of `fs`, on an empty table, have been stored in new entries. -/
structure Machine.Stored (h : Host) (fs : List Phrase) (s t : Machine) : Prop where
  count : t.varCount = s.varCount + fs.length
  old : ∀ i < s.varCount, t.vars i = s.vars i
  oldText : ∀ i < s.varCount, (s.vars i).type = .str →
    t.mem.cstr? (s.vars i).val = some (s.textAt (s.vars i).val)
  type : ∀ i f, fs[i]? = some f →
    (t.vars (s.varCount + i)).type = (f.value h (.blank [])).1.var.type
  number : ∀ i f, fs[i]? = some f → (t.vars (s.varCount + i)).type ≠ .str →
    (t.vars (s.varCount + i)).val = (f.value h (.blank [])).1.var.val
  text : ∀ i f, fs[i]? = some f → (t.vars (s.varCount + i)).type = .str →
    t.mem.cstr? (t.vars (s.varCount + i)).val = some (f.value h (.blank [])).1.text

variable {s t : Machine} {code : List Byte} {n : ℕ}

theorem Env.safe_env (s : Machine) : s.env.Safe := fun _ hd => absurd hd List.not_mem_nil

theorem Machine.textAt_null (h0 : s.mem 0 = 0) : s.textAt 0 = [] := by
  have htext : s.mem.cstr? 0 = some [] := Mem.cstr?_eq_some.mpr
    ⟨List.not_mem_nil, by decide +kernel, congrArg (fun b => [b]) h0⟩
  rw [textAt, htext]
  rfl

/-- What a session keeps: the table is well stored and without names, and NULL is the empty
string. -/
theorem Lasting.kept (hs : Lasting h s) : s.WellStored h ∧ Msh.Nameless s ∧ s.textAt 0 = [] := by
  induction hs with
  | init h0 =>
    exact ⟨.of_numbers h0 fun _ hi => absurd hi (Nat.not_lt_zero _),
      ⟨Nat.zero_le _, fun _ hi => absurd hi (Nat.not_lt_zero _)⟩, Machine.textAt_null h0⟩
  | call _ hn hfit hr ih =>
    obtain ⟨hwell, hnameless, hnull⟩ := ih
    obtain ⟨-, hrep, -⟩ := (wp_of_ok hr).mp (denote_text hwell.rep (Env.safe_env _) hn hfit)
    refine ⟨hrep.wellStored, hnameless.execute hr, ?_⟩
    rw [Machine.Str.textAt hrep.null]
    exact (Env.runAll_grows _ _).null.trans hnull

theorem stored_of_rep {fs : List Phrase} (hnull : s.textAt 0 = []) (hr : Rep h t b)
    (happ : Env.Appends h fs { s.env with hadError := false } b) : Machine.Stored h fs s t := by
  have hvar (i : ℕ) : t.vars i = (b.vars i).var := hr.vars i
  have hcount : b.varCount = s.varCount + fs.length := happ.count
  have hnew (i : ℕ) (f : Phrase) (hf : fs[i]? = some f) :
      (b.vars (s.varCount + i)).Alike (f.value h (.blank [])).1 := by
    rw [← hnull]
    exact happ.new i f hf
  have hshown {i : ℕ} (hi : i < b.varCount) (hstr : (b.vars i).var.type = .str) :
      t.mem.cstr? (b.vars i).var.val = some (b.vars i).text :=
    (hr.texts i hi (by rw [hstr]; decide) (by rw [hstr]; decide)).text
  refine ⟨hr.varCount.trans happ.count, fun i hi => ?_, fun i hi hstr => ?_, fun i f hf => ?_,
    fun i f hf hne => ?_, fun i f hf hstr => ?_⟩
  · rw [hvar, happ.old i hi]
    rfl
  · have htext := hshown (i := i) (by omega)
    rw [happ.old i hi] at htext
    exact htext hstr
  · rw [hvar, (hnew i f hf).type]
  · rw [hvar] at hne ⊢
    exact (hnew i f hf).val hne
  · rw [hvar] at hstr ⊢
    have hi := (List.getElem?_eq_some_iff.mp hf).1
    rw [← (hnew i f hf).text]
    exact hshown (by omega) hstr

/-- **The shell is a calculator without variables.**  Whatever has been run since `msh_init`, a
call of `msh_execute` succeeds exactly if every assignment of its text has a value on an empty table
and the table has room for all of them; and then these values are what it stores. -/
theorem calculator (hs : Lasting h s) (hn : code.length < n)
    (hfit : (s.env.execute h code).top ≤ heapSize.toNat) :
    ((∃ t, mshExecute h n code s = .ok true t) ↔
      (∀ f ∈ phrases code, f.Sound h []) ∧ s.varCount + (phrases code).length ≤ 64) ∧
    ∀ t, mshExecute h n code s = .ok true t → s.Stored h (phrases code) t := by
  obtain ⟨hwell, hname, hnull⟩ := hs.kept
  have hnameless : Env.Nameless { s.env with hadError := false } := ⟨hname.count, hname.name⟩
  obtain ⟨hiff, happends⟩ := Env.runAll_ok_iff (h := h) (program code) hnameless rfl
    (Env.safe_env s)
  have hdenote := denote_text hwell.rep (Env.safe_env s) hn hfit
  have hreturns : ∀ t, mshExecute h n code s = .ok true t →
      ((s.env.execute h code).hadError = false ∧ (s.env.execute h code).Safe) ∧
        Rep h t (s.env.execute h code) := fun t ht => by
    obtain ⟨herr, hrep, hsafe⟩ := (wp_of_ok ht).mp hdenote
    exact ⟨⟨(Bool.not_eq_true' _).mp herr.symm, hsafe⟩, hrep⟩
  rw [← hnull]
  refine ⟨⟨fun ⟨t, ht⟩ => hiff.mp (hreturns t ht).1, fun hsound => ?_⟩, fun t ht =>
    stored_of_rep hnull (hreturns t ht).2 (happends (hreturns t ht).1)⟩
  obtain ⟨hok, hsafe⟩ := hiff.mpr hsound
  cases hrun : mshExecute h n code s with
  | ok b t =>
    obtain ⟨herr, -, -⟩ := (wp_of_ok hrun).mp hdenote
    have hb : b = true := herr.trans ((Bool.not_eq_true' _).mpr hok)
    exact ⟨t, by rw [hb]⟩
  | error e t => exact absurd hsafe ((wp_of_error hrun).mp hdenote).2

/-- `x = 1` `y = x`, right after `msh_init`: there is no `x` to read. -/
theorem calculator_no_variable :
    ((∃ t, mshExecute Host.bare 14 (str "x = 1\ny = x") (mshInit Machine.boot) = .ok true t) ↔
      (∀ f ∈ phrases (str "x = 1\ny = x"), f.Sound Host.bare []) ∧
        (mshInit Machine.boot).varCount + (phrases (str "x = 1\ny = x")).length ≤ 64) ∧
    ∀ t, mshExecute Host.bare 14 (str "x = 1\ny = x") (mshInit Machine.boot) = .ok true t →
      (mshInit Machine.boot).Stored Host.bare (phrases (str "x = 1\ny = x")) t :=
  calculator (.init rfl) (by decide) (by decide +kernel)

end HuskyKernel
