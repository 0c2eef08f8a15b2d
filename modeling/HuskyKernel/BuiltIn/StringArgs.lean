import HuskyKernel.BuiltIn.Pointers

/-!
# BuiltIn/StringArgs — what the string functions are handed

The strings of an evaluation are those of the table and those it makes itself, and as long as
`malloc` has room for each request nothing overwrites them.  Then every value handed to a string
function is a string — but for one case: `+` takes its type from its left operand unless one of them
is a number, so behind a string it hands on a NONE or a BOOL as well (`handsStrings_iff`).
-/

namespace HuskyKernel

open Wp Scan Msh

/-- A string lies at `p`, out of reach of `malloc`, and `p` is not NULL. -/
def IsString (h : Host) (s : Machine) (p : Word) : Prop :=
  p ≠ 0 ∧ ∃ bs, Str h.heap s.mem s.heapIndex.toNat p bs

/-- A value tagged STR is a string. -/
def MshVar.Valid (h : Host) (s : Machine) (v : MshVar) : Prop :=
  v.type = .str → IsString h s v.val

/-- The STR entries of the table are strings. -/
def ValidTable (h : Host) (s : Machine) : Prop := ∀ i < s.varCount, (s.vars i).Valid h s

namespace Move

/-- The heap has room for what the move asks for. -/
def Granted (m : Move) : Prop := ∀ n ∈ m.request, m.start.Room n

/-- Whatever the move hands to a string function is tagged STR and is a string, and the move leaves
it as it is. -/
def HandsStrings (h : Host) (m : Move) : Prop :=
  ∀ type ptr, .strArg type ptr ∈ m.events h →
    type = .str ∧ IsString h m.start ptr ∧ (m.stop h).mem.cstr? ptr = m.start.mem.cstr? ptr

/-- A string `+` a value that is neither a string nor a number. -/
def Mixes : Move → Prop
  | operand _ => False
  | operation o left right _ =>
    o.byte = chr '+' ∧ left.type = .str ∧ (right.type = .none ∨ right.type = .bool)

instance : DecidablePred Granted := fun m => inferInstanceAs (Decidable (∀ n ∈ m.request, _))

instance : DecidablePred Mixes
  | operand _ => inferInstanceAs (Decidable False)
  | operation .. => inferInstanceAs (Decidable (_ ∧ _ ∧ (_ ∨ _)))

end Move

variable {h : Host} {s t : Machine} {v left right : MshVar} {o : Op} {p : Word} {m : Move}

/-! ## Strings stay -/

theorem IsString.fills (hp : IsString h s p) (hst : Fills h s t) : IsString h t p :=
  ⟨hp.1, hp.2.imp fun _ hs => hst.str hs⟩

theorem MshVar.Valid.fills (hv : v.Valid h s) (hst : Fills h s t) : v.Valid h t := fun hstr =>
  (hv hstr).fills hst

theorem IsString.cstr? (hp : IsString h s p) (hst : Fills h s t) :
    t.mem.cstr? p = s.mem.cstr? p := by
  obtain ⟨-, bs, hs⟩ := hp
  rw [hs.text, (hst.str hs).text]

theorem ValidTable.fills (hs : ValidTable h s) (hst : Fills h s t) (hf : Frame s t) :
    ValidTable h t := by
  intro i hi
  rw [hf.varCount] at hi
  rw [hf.vars]
  exact (hs i hi).fills hst

theorem valid_zero : MshVar.zero.Valid h s := fun hstr => MshType.noConfusion hstr

/-! ## Operands -/

/-- The value an operand comes to. -/
def Msh.Operand.var : Operand → MshVar
  | .left v => v
  | .done v => v

section Operands

/-- What is known of an operand that has been read. -/
def Reads (h : Host) (s : Machine) (o : Operand) (t : Machine) : Prop :=
  Fills h s t ∧ o.var.Valid h t

/-- A closed literal, taken apart. -/
theorem rest_of_closed {u : Machine} (hq : u.cur = chr '"')
    (hclosed : u.code.getD (scan inString u.code (u.pc + 1)) 0 = chr '"') :
    ∃ zs, u.rest = chr '"' :: (scanned inString u.code (u.pc + 1) ++ chr '"' :: zs) := by
  have hdrop {i : ℕ} (hi : u.code.getD i 0 = chr '"') :
      u.code.drop i = chr '"' :: u.code.drop (i + 1) := by
    have hcons := drop_eq_cons_of_getD (p := fun c => decide (c = chr '"')) (d := 0) (l := u.code)
      (i := i) (decide_eq_true hi) (by decide)
    rwa [hi] at hcons
  refine ⟨u.code.drop (scan inString u.code (u.pc + 1) + 1), ?_⟩
  rw [Machine.rest, hdrop hq, ← hdrop hclosed, drop_scan, scanned,
    List.takeWhile_append_dropWhile]

theorem reads_stringLiteral (hq : (skipped s).cur = chr '"') (hm : (Move.operand s).Granted) :
    wp (stringLiteral h) (Reads h s) (fun _ _ => False) (skipped s) := by
  by_cases hclosed : (skipped s).code.getD (scan inString (skipped s).code ((skipped s).pc + 1)) 0
      = chr '"'
  · obtain ⟨zs, hrest⟩ := rest_of_closed hq hclosed
    have hin : ∀ c ∈ scanned inString (skipped s).code ((skipped s).pc + 1), inString c = true :=
      fun c hc => List.mem_takeWhile_imp hc
    have h0 : 0 ∉ scanned inString (skipped s).code ((skipped s).pc + 1) := fun hmem =>
      absurd (hin 0 hmem) (by decide)
    have hroom : s.Room ((scanned inString (skipped s).code ((skipped s).pc + 1)).length + 1) :=
      hm _ (request_literal hrest hin)
    refine wp_mono (wp_stringLiteral_text hrest hin hroom) (fun o t ht => ?_) fun _ _ => id
    obtain ⟨rfl, ⟨pc, reach, ht⟩, -⟩ := ht
    have hst : StoresText h (scanned inString (skipped s).code ((skipped s).pc + 1)) s t :=
      ht ▸ ⟨rfl, rfl⟩
    exact ⟨hst.fills hroom, fun _ => ⟨hroom.next_ne_zero, _, hst.str hroom h0⟩⟩
  · rw [stringLiteral, wp_bind, wp_advance, wp_bind, wp_get, wp_bind, wp_scanCode, wp_bind,
      wp_peek, wp_ite]
    exact ⟨fun _ => ⟨.of_eq rfl rfl, valid_zero⟩,
      fun hno => absurd (not_not.mp hno) hclosed⟩

theorem reads_variableRef (hs : ValidTable h s) (hq : (skipped s).cur ≠ chr '"')
    (ha : isalpha (skipped s).cur = true) (hm : (Move.operand s).Granted) :
    wp (variableRef h) (fun v => Reads h s (.left v)) (fun _ _ => False) (skipped s) := by
  have hentry {i : ℕ} (hl : (skipped s).lookup (parsed (skipped s)).identBuf = some i) :
      s.lookup (parsed (skipped s)).identBuf = some i := hl
  have hvalid {i : ℕ} (hl : (skipped s).lookup (parsed (skipped s)).identBuf = some i) :=
    hs i (Machine.lookup_eq_some.mp (hentry hl)).2.1
  refine wp_variableRef h (fun _ => ⟨.of_eq rfl rfl, valid_zero⟩)
    (fun i hl hstr => ?_) fun i hl _ => ⟨.of_eq rfl rfl, hvalid hl⟩
  rw [show (skipped s).vars i = s.vars i from rfl] at hstr ⊢
  obtain ⟨hne, bs, hbs⟩ := hvalid hl hstr
  have hroom : s.Room (bs.length + 1) := by
    refine hm _ ?_
    rw [Move.request, if_neg hq, Machine.entry?, if_pos ha, hentry hl, Option.map_some,
      Option.bind_some, if_pos ⟨hstr, hne⟩, hbs.text]
    rfl
  rw [wp_of_ok (strdup_eq (s := parsed (skipped s)) hbs hne hroom)]
  have hst : StoresText h bs s ((parsed (skipped s)).keeping h bs
      [.strArg (s.vars i).type (s.vars i).val]) := ⟨rfl, rfl⟩
  exact ⟨hst.fills hroom, fun _ => ⟨hroom.next_ne_zero, bs, hst.str hroom hbs.zero_notMem⟩⟩

/-- **An operand that is a string is one.** -/
theorem reads_operand (hs : ValidTable h s) (hm : (Move.operand s).Granted) :
    wp ((Move.operand s).act h) (Reads h s) (fun _ _ => False) s := by
  refine wp_operand (fun hq => reads_stringLiteral hq hm)
    (fun hq ha => reads_variableRef hs hq ha hm) (fun _ _ => ?_) fun _ _ => ?_
  · exact ⟨.of_eq rfl rfl, fun hstr => MshType.noConfusion hstr⟩
  · exact ⟨.of_eq rfl rfl, valid_zero⟩

end Operands

/-- An operand hands on the string of a variable. -/
theorem handsStrings_operand (hs : ValidTable h s) (hm : (Move.operand s).Granted) :
    (Move.operand s).HandsStrings h := by
  have hstop : Fills h s ((Move.operand s).stop h) :=
    wp_after.mp (wp_mono (reads_operand hs hm) (fun _ _ hv => hv.1) fun _ _ => False.elim)
  intro type ptr he
  rw [events_eq, Move.script] at he
  split_ifs at he with hq hr
  · cases List.mem_singleton.mp he
  · cases he
  · rw [Machine.entry?] at he
    split_ifs at he with ha
    · cases hl : s.lookup (parsed (skipped s)).identBuf with
      | none => simp [hl] at he
      | some i =>
        have hv := hs i (Machine.lookup_eq_some.mp hl).2.1
        simp only [hl, Option.map_some] at he
        split_ifs at he with hstr
        · cases List.mem_singleton.mp he
          exact ⟨hstr, hv hstr, (hv hstr).cstr? hstop⟩
        · cases he
    · cases he

/-! ## Operations -/

section Operations

theorem MshVar.Valid.readable (hv : v.Valid h s) : Readable s.mem v := fun hstr => by
  obtain ⟨-, bs, hbs⟩ := hv hstr
  rw [hbs.text]
  rfl

/-- Operands of the common type STR: the left one is a string, the right one no number. -/
theorem str_of_common (hc : commonType left.type right.type = .str) :
    left.type = .str ∧ (right.type = .str ∨ right.type = .none ∨ right.type = .bool) := by
  cases hl : left.type <;> cases hr : right.type <;> rw [hl, hr] at hc <;> first
    | exact absurd hc (by decide)
    | simp

/-- Unless it mixes, a concatenation is one of strings. -/
theorem str_of_not_mixes (hc : o.byte = chr '+' ∧ commonType left.type right.type = .str)
    (hm : ¬ (Move.operation o left right s).Mixes) : left.type = .str ∧ right.type = .str := by
  obtain ⟨hl, hr⟩ := str_of_common hc.2
  exact ⟨hl, hr.resolve_right fun hother => hm ⟨hc.1, hl, hother⟩⟩

/-- **An operation on strings comes to a string**, and leaves theirs alone. -/
theorem wp_operation_valid (hl : left.Valid h s) (hr : right.Valid h s)
    (hm : (Move.operation o left right s).Granted)
    (hmix : ¬ (Move.operation o left right s).Mixes) :
    wp (operate h o left right) (fun v t => Fills h s t ∧ v.Valid h t)
      (fun _ t => Fills h s t) s := by
  rw [operate, wp_bind]
  refine wp_mono wp_unify (fun p t hu => ?_) fun e t hstop =>
    absurd ⟨hl.readable, hr.readable⟩ hstop.1.2.2
  obtain ⟨hu, rfl⟩ := hu
  obtain ⟨c, x, y⟩ := p
  obtain rfl : c = commonType left.type right.type := hu.common
  by_cases hcat : o.byte = chr '+' ∧ commonType left.type right.type = .str
  · obtain ⟨hx, hy⟩ := hu.other (by simp only [hcat.2]; decide) (by simp only [hcat.2]; decide)
    obtain rfl : x = left := hx
    obtain rfl : y = right := hy
    obtain ⟨hlstr, hrstr⟩ := str_of_not_mixes hcat hmix
    obtain ⟨-, l, hl⟩ := hl hlstr
    obtain ⟨-, r, hr⟩ := hr hrstr
    have hroom : s.Room ((l ++ r).length + 1) := by
      refine hm _ ?_
      rw [Move.request, if_pos hcat, hl.text, hr.text, List.length_append]
      rfl
    have h0 : 0 ∉ l ++ r := fun hmem =>
      (List.mem_append.mp hmem).elim hl.zero_notMem hr.zero_notMem
    have hrun := concat_eq (h := h) (s := { s with log := converted s.mem x y ++ s.log }) hl hr
      hroom
    unfold applyOp
    simp only [hcat.1, hcat.2, if_true]
    rw [wp_bind, wp_of_ok hrun]
    have hst (es : List Event) : StoresText h (l ++ r) s (Machine.keeping h (l ++ r) es
        { s with log := converted s.mem x y ++ s.log }) := ⟨rfl, rfl⟩
    exact ⟨(hst _).fills hroom, fun _ => ⟨hroom.next_ne_zero, _, (hst _).str hroom h0⟩⟩
  · have hsame {es : List Event} {he : Bool} : Fills h s { s with log := es, hadError := he } :=
      .of_eq rfl rfl
    have hleft (hc : commonType left.type right.type = .str) : IsString h s left.val :=
      hl (str_of_common hc).1
    refine wp_applyOp_other hcat (fun w hw => ⟨hsame, fun hc => ?_⟩) hsame
      ⟨hsame, fun hc => (hleft hc).fills hsame⟩
    rw [hw hc]
    exact (hleft hc).fills hsame

/-- An operation that does not mix hands strings on. -/
theorem handsStrings_operation (hl : left.Valid h s) (hr : right.Valid h s)
    (hm : (Move.operation o left right s).Granted)
    (hmix : ¬ (Move.operation o left right s).Mixes) :
    (Move.operation o left right s).HandsStrings h := by
  have hstop : Fills h s ((Move.operation o left right s).stop h) :=
    wp_after.mp ((wp_map _).mpr (wp_mono (wp_operation_valid hl hr hm hmix)
      (fun _ _ hv => hv.1) fun _ _ => id))
  have hvalid {v : MshVar} (hv : v = left ∨ v = right) (hstr : v.type = .str) :
      v.type = .str ∧ IsString h s v.val ∧
        ((Move.operation o left right s).stop h).mem.cstr? v.val = s.mem.cstr? v.val := by
    have hs : IsString h s v.val := by
      rcases hv with rfl | rfl
      · exact hl hstr
      · exact hr hstr
    exact ⟨hstr, hs, hs.cstr? hstop⟩
  intro type ptr he
  rw [events_eq, Move.script] at he
  rcases List.mem_append.mp he with he | he
  · split_ifs at he with hcat
    · obtain ⟨hlstr, hrstr⟩ := str_of_not_mixes hcat hmix
      rcases mem_concatenated he with he | he | he
      · cases he
      · cases he
        exact hvalid (.inl rfl) hlstr
      · cases he
        exact hvalid (.inr rfl) hrstr
    · cases he
  · obtain ⟨v, hv, hstr, he⟩ := mem_converted he
    cases he
    exact hvalid hv hstr

end Operations

/-! ## Evaluations -/

section Evaluations

variable {n : ℕ} {ms : List Move} {r : EStateM.Result Stop Machine MshVar}

/-- Behind an operand the table is what it was. -/
theorem reads_of_run {o : Operand} (hs : ValidTable h s) (hm : (Move.operand s).Granted)
    (hrun : (Move.operand s).run h = .ok o t) : Reads h s o t ∧ ValidTable h t := by
  have hread := (wp_of_ok hrun).mp (reads_operand hs hm)
  exact ⟨hread, hs.fills hread.1 ((frame_evalOperand h).ok hrun)⟩

/-- **An evaluation that does not mix hands strings on** — induction on the evaluation. -/
theorem Evaluates.handsStrings (hev : Evaluates h n s ms r) (hs : ValidTable h s)
    (hgrant : ∀ m ∈ ms, m.Granted) (hmix : ∀ m ∈ ms, ¬ m.Mixes) :
    (∀ m ∈ ms, m.HandsStrings h) ∧ ∀ v t, r = .ok v t → Fills h s t ∧ v.Valid h t := by
  induction hev with
  | deep s => exact ⟨fun m hm => absurd hm List.not_mem_nil, fun v t hr => by cases hr⟩
  | stop hrun =>
    refine ⟨?_, fun v t hr => by cases hr⟩
    simpa using handsStrings_operand hs (hgrant _ List.mem_cons_self)
  | done hrun | last hrun ho =>
    have hm := hgrant _ List.mem_cons_self
    obtain ⟨⟨hfills, hv⟩, -⟩ := reads_of_run hs hm hrun
    refine ⟨by simpa using handsStrings_operand hs hm, fun v t hr => ?_⟩
    cases hr
    exact ⟨⟨hfills.le, hfills.mem⟩, hv⟩
  | @inner n s t u v ms e hrun ho hr ih =>
    have hm := hgrant _ List.mem_cons_self
    obtain ⟨-, htable⟩ := reads_of_run hs hm hrun
    have hrest := ih htable (fun m hm => hgrant m (List.mem_cons_of_mem _ hm))
      fun m hm => hmix m (List.mem_cons_of_mem _ hm)
    refine ⟨?_, fun v t hr => by cases hr⟩
    exact List.forall_mem_cons.mpr ⟨handsStrings_operand hs hm, hrest.1⟩
  | @op n s t u v right ms hrun ho hr ih =>
    obtain ⟨hm, hgrant⟩ := List.forall_mem_cons.mp hgrant
    obtain ⟨hgrant, hlast⟩ := List.forall_mem_append.mp hgrant
    obtain ⟨-, hmix⟩ := List.forall_mem_cons.mp hmix
    obtain ⟨hmix, hlast'⟩ := List.forall_mem_append.mp hmix
    replace hlast := hlast _ (List.mem_singleton.mpr rfl)
    replace hlast' := hlast' _ (List.mem_singleton.mpr rfl)
    obtain ⟨⟨hfirst, hleft⟩, htable⟩ := reads_of_run hs hm hrun
    obtain ⟨hinner, hrest⟩ := ih htable hgrant hmix
    obtain ⟨hfills, hright⟩ := hrest _ _ rfl
    replace hfills : Fills h t u := ⟨hfills.le, hfills.mem⟩
    replace hleft : v.Valid h u := hleft.fills hfills
    refine ⟨List.forall_mem_cons.mpr ⟨handsStrings_operand hs hm, ?_⟩, fun w x hw => ?_⟩
    · refine List.forall_mem_append.mpr ⟨hinner, fun m hmem => ?_⟩
      obtain rfl := List.mem_singleton.mp hmem
      exact handsStrings_operation hleft hright hlast hlast'
    · obtain ⟨hop, hw⟩ := (wp_of_ok hw).mp (wp_operation_valid hleft hright hlast hlast')
      exact ⟨(hfirst.trans hfills).trans hop, hw⟩

/-- A move that mixes hands on what is no string. -/
theorem Move.not_handsStrings_of_mixes (hm : m.Mixes) : ¬ m.HandsStrings h := by
  cases m with
  | operand s => exact hm.elim
  | operation o left right s =>
    obtain ⟨hplus, hl, hr⟩ := hm
    have hc : commonType left.type right.type = .str := by
      rcases hr with hr | hr <;> rw [hl, hr] <;> rfl
    intro hhands
    have hmem {e : Event}
        (he : e ∈ concatenated ((operation o left right s).block h) left right s) :
        e ∈ (operation o left right s).events h := by
      rw [events_eq, script, if_pos ⟨hplus, hc⟩]
      exact List.mem_append_left _ he
    have hleft : argOf left ∈ concatenated ((operation o left right s).block h) left right s := by
      unfold concatenated
      split
      · simp
      · simp
      · split_ifs <;> simp
    obtain ⟨-, ⟨-, bs, hbs⟩, -⟩ := hhands _ _ (hmem hleft)
    have hright : argOf right ∈ concatenated ((operation o left right s).block h) left right s := by
      unfold concatenated
      rw [show s.mem.cstr? left.val = some bs from hbs.text]
      cases s.mem.cstr? right.val with
      | none => simp
      | some r => split_ifs <;> simp
    obtain ⟨hstr, -⟩ := hhands _ _ (hmem hright)
    rcases hr with hr | hr <;> rw [hr] at hstr <;> cases hstr

/-- **Every value handed to a string function is a string**, as long as `malloc` has room and no
`+` has a string to its left and a NONE or a BOOL to its right. -/
theorem handsStrings_iff (h : Host) {s : Machine} (hs : ValidTable h s)
    (hgrant : ∀ m ∈ movesOf h s, m.Granted) :
    (∀ m ∈ movesOf h s, m.HandsStrings h) ↔ ∀ m ∈ movesOf h s, ¬ m.Mixes := by
  refine ⟨fun hall m hm hmix => Move.not_handsStrings_of_mixes hmix (hall m hm), fun hmix => ?_⟩
  exact ((evaluates_evalExpr h s).handsStrings hs hgrant hmix).1

/-- `n` is 7 and `s` is `hi`, in the first block of the heap. -/
def tableNS (text : List Byte) : Machine :=
  { reading text with
    varCount := 2
    vars := fun i => if i = 0 then ⟨str "n" ++ List.replicate 31 0, .int, 7⟩
      else ⟨str "s" ++ List.replicate 31 0, .str, 0x400000⟩
    mem := Machine.boot.mem.store 0x400000 (str "hi" ++ [0])
    heapIndex := 3 }

theorem validTable_tableNS (text : List Byte) : ValidTable Host.bare (tableNS text) := by
  intro i hi
  change (if i = 0 then (_ : MshVar) else _).Valid _ _
  split
  · exact fun hstr => MshType.noConfusion hstr
  · exact fun _ => ⟨by decide, str "hi", .store (i := 0) Machine.boot.mem (by decide) (by decide)⟩

/-- `s` is copied and joined to `b`, the join is read as a number, and dividing by that fails. -/
theorem handsStrings_quotient : ValidTable Host.bare (tableNS (str "n / 0 + s + \"b\"")) ∧
    ∀ m ∈ movesOf Host.bare (tableNS (str "n / 0 + s + \"b\"")), m.HandsStrings Host.bare := by
  have htable := validTable_tableNS (str "n / 0 + s + \"b\"")
  exact ⟨htable, (handsStrings_iff Host.bare htable (by decide +kernel)).mpr (by decide +kernel)⟩

/-- An unknown name is NONE, and its value NULL. -/
theorem not_handsStrings : ValidTable Host.bare (reading (str "\"a\" + y")) ∧
    (∀ m ∈ movesOf Host.bare (reading (str "\"a\" + y")), m.Granted) ∧
    ¬ ∀ m ∈ movesOf Host.bare (reading (str "\"a\" + y")), m.HandsStrings Host.bare := by
  refine ⟨fun i hi => absurd hi (Nat.not_lt_zero i), by decide +kernel, fun hall => ?_⟩
  have hmix : ∃ m ∈ movesOf Host.bare (reading (str "\"a\" + y")), m.Mixes := by decide +kernel
  obtain ⟨m, hm, hmix⟩ := hmix
  exact Move.not_handsStrings_of_mixes hmix (hall m hm)

end Evaluations

end HuskyKernel
