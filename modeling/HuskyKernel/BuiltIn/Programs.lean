import HuskyKernel.BuiltIn.Assignments
import HuskyKernel.BuiltIn.Phrases

/-!
# BuiltIn/Programs — what any program does

The meaning of phrases and sentences, and that `msh_execute` computes it: on every text whatsoever,
from every machine whose table is well stored, as long as the heap lasts (`denote_text`).  A string
that is not closed is an error and has type NONE; of what is read besides assignments nothing stays
but the buffer of `parse_ident`.
-/

namespace HuskyKernel

open Wp Scan Msh

variable (h : Host)

/-! ## The meaning -/

/-- The value of a phrase. -/
def Phrase.value : Phrase → Env → Val × Env
  | last _ p, a => p.value h a
  | unclosed _ _, a => (⟨MshVar.zero, a.null⟩, a.fail)
  | op _ p _ o f, a =>
      let (left, a) := p.value h a
      let (right, a) := f.value a
      o.apply h left right a

/-- The effect of a sentence. -/
def Sentence.exec : Sentence → Env → Env
  | skip _ _, a => a
  | name _ n _, a => { a with identBuf := n.name }
  | assign _ n _ f _, a =>
      let (v, a) := f.value h { a with identBuf := n.name }
      if a.hadError then a else a.assigned v

/-- Sentences, one after another, up to the first that fails. -/
def Env.runAll : List Sentence → Env → Env
  | [], a => a
  | c :: cs, a => if (c.exec h a).hadError then c.exec h a else Env.runAll cs (c.exec h a)

variable {h} {a b : Env} {s t : Machine} {tail ys : List Byte} {E : Stop → Machine → Prop}

theorem Phrase.evolves_value (f : Phrase) (a : Env) : a.Evolves (f.value h a).2 := by
  induction f generalizing a with
  | last _ p => exact p.evolves_value a
  | unclosed _ _ => exact Env.evolves_fail a
  | op _ p _ o f ih =>
    exact ((p.evolves_value a).trans (ih _)).trans (o.evolves_apply _ _ _)

/-- A string that is not closed is an error. -/
theorem Phrase.hadError_value {f : Phrase} (hf : f.expr? = none) (a : Env) :
    (f.value h a).2.hadError = true := by
  induction f generalizing a with
  | last b p => cases hf
  | unclosed _ _ => rfl
  | op _ p _ o f ih =>
    exact (o.evolves_apply _ _ _).hadError (ih (Option.map_eq_none_iff.mp hf) _)

/-- What an assignment comes to before its value is stored. -/
def Sentence.rhs (h : Host) (n : Ident) (f : Phrase) (a : Env) : Val × Env :=
  f.value h { a with identBuf := n.name }

theorem Sentence.rhs_grows (b : Blanks) (n : Ident) (b' : Blanks) (f : Phrase) (b'' : Blanks)
    (a : Env) : (rhs h n f a).2.Grows ((assign b n b' f b'').exec h a) := by
  change (rhs h n f a).2.Grows
    (if (rhs h n f a).2.hadError then (rhs h n f a).2 else (rhs h n f a).2.assigned (rhs h n f a).1)
  split
  · exact .refl _
  · exact Env.assigned_grows _ _

theorem Sentence.exec_grows (c : Sentence) (a : Env) : a.Grows (c.exec h a) := by
  cases c with
  | skip => exact .refl a
  | name => exact .of_eq rfl rfl rfl
  | assign b n b' f b'' =>
    exact ((a.evolves_identBuf n.name).trans (f.evolves_value _)).toGrows.trans
      (rhs_grows b n b' f b'' a)

theorem Env.runAll_grows (cs : List Sentence) (a : Env) : a.Grows (runAll h cs a) := by
  induction cs generalizing a with
  | nil => exact .refl a
  | cons c cs ih =>
    rw [runAll]
    split
    · exact c.exec_grows a
    · exact (c.exec_grows a).trans (ih _)

/-! ## Phrases -/

/-- An operand that is missing has no value: none of the built-in words starts there. -/
theorem denote_operand (eval : Msh MshVar) {b : Blanks} {p : Prim} (hr : Rep h s a)
    (hsafe : a.Safe) (hrest : s.rest = b.text ++ (p.text ++ ys)) (hp : p.Ends ys)
    (hfit : (p.value h a).2.top ≤ heapSize.toNat) :
    wp (evalOperand h eval) (fun o t => ∃ v, o = .left v ∧ Yields h s (p.value h a) v t ∧
      t.rest = ys) E s := by
  by_cases hne : p = .empty
  · subst hne
    have hskip : (skipped s).rest = ys := rest_skipped_of_blanks hrest hp.1
    refine wp_prim h hrest hp (fun _ h0 => by cases h0) (fun _ h0 => by cases h0)
      (fun _ h0 => by cases h0) fun _ => ?_
    exact ⟨MshVar.zero, rfl, ⟨rfl, fun _ _ => hr.null, hr.congr rfl rfl rfl rfl rfl rfl,
      .of_eq rfl rfl, hsafe⟩, hskip⟩
  · exact denote_evalOperand eval hr hsafe hrest hp hne hfit

/-- **A string that is not closed** ends the evaluation of its phrase. -/
theorem denote_unclosed (eval : Msh MshVar) {b : Blanks} {q : Quoted} (hr : Rep h s a)
    (hsafe : a.Safe) (hrest : s.rest = b.text ++ (chr '"' :: q.text ++ ys))
    (h0 : ys.headD 0 = 0) :
    wp (evalOperand h eval) (fun o t => ∃ v, o = .done v ∧
      Yields h s (⟨MshVar.zero, a.null⟩, a.fail) v t) E s := by
  have hskip : (skipped s).rest = chr '"' :: (q.text ++ ys) := rest_skipped_of_blanks hrest rfl
  have hopen : (skipped s).cur = chr '"' := cur_eq hskip
  have hinside := rest_advance hskip
  have hend : (skipped s).code.drop (scan inString (skipped s).code ((skipped s).pc + 1)) = ys :=
    rest_scan hinside q.chars (by rw [h0]; rfl)
  have hcur : (skipped s).code.getD (scan inString (skipped s).code ((skipped s).pc + 1)) 0 =
      0 := by
    rw [← headD_drop, hend, h0]
  rw [evalOperand, wp_bind, wp_skipWhitespace, wp_bind, wp_peek, seen_skipped,
    if_neg (by rw [hopen]; decide), if_pos hopen, stringLiteral, wp_bind, wp_advance, wp_bind,
    wp_get, wp_bind, wp_scanCode, wp_bind, wp_peek, wp_ite]
  refine ⟨fun _ => wp_bind.mpr (wp_raise.mpr ⟨MshVar.zero, rfl, rfl, fun _ _ => hr.null, ?_,
    .of_eq rfl rfl, hsafe⟩), fun hclose => ?_⟩
  · exact hr.fail.congr rfl rfl rfl rfl rfl rfl
  · have hquote : (0 : Byte) = chr '"' := hcur.symm.trans (not_not.mp hclose)
    exact absurd hquote (by decide)

/-- Behind an operator is the rest of the phrase, and then the operation is made. -/
theorem denote_tail {l : Val} {v : MshVar} {s₀ : Machine} {eval : Msh MshVar} {b : Blanks} {o : Op}
    {r : Val × Env} (hs : Yields h s₀ (l, a) v s) (hrest : s.rest = b.text ++ o.byte :: ys)
    (hev : ∀ t, Rep h t a → t.rest = ys → wp eval (Yields h t r) (fun x _ => Trapped r.2 x) t)
    (hgrows : a.Grows r.2) (hfit : (o.apply h l r.1 r.2).2.top ≤ heapSize.toNat) :
    wp (evalTail h eval v) (Yields h s₀ (o.apply h l r.1 r.2))
      (fun x _ => Trapped (o.apply h l r.1 r.2).2 x) s := by
  have hskip := rest_skipped_of_blanks hrest (isspace_of_isOp o.isOp)
  have hcur : (skipped s).cur = o.byte := cur_eq hskip
  have hmoved : Yields h s₀ (l, a) v { skipped s with pc := (skipped s).pc + 1 } :=
    hs.congr rfl rfl rfl rfl rfl rfl
  have hevolves := (o.evolves_apply (h := h) l r.1 r.2).toGrows
  rw [evalTail, wp_bind, wp_skipWhitespace, wp_bind, wp_peek, seen_skipped,
    if_pos (by rw [hcur]; exact o.isOp), wp_bind, wp_advance, wp_bind, hcur]
  refine wp_mono (hev _ hmoved.rep (rest_advance hskip)) (fun right t hy => wp_bind.mpr ?_)
    fun x _ htrap => htrap.grows hevolves
  have hleft := hmoved.kept hy hgrows.top
  obtain rfl := hs.var
  obtain rfl := hy.var
  refine wp_mono (denote_unify hleft hy.shown) (fun p u hu => ?_) fun _ _ => False.elim
  obtain ⟨hxy, log, rfl⟩ := hu
  have hlogged := hy.congr (u := { t with log := log }) rfl rfl rfl rfl rfl rfl
  have happly := denote_applyOp o hlogged.rep hlogged.safe hleft hlogged.shown hxy hfit
  exact wp_mono happly (fun w u hw => hmoved.trans (hlogged.trans hw)) fun _ _ => id

/-- **A phrase has its value**, or traps — induction on the phrase. -/
theorem denote_phraseN (f : Phrase) {n : ℕ} {s : Machine} {a : Env} (hr : Rep h s a)
    (hsafe : a.Safe) (hrest : s.rest = f.text ++ tail) (hf : f.Ends tail)
    (hn : f.text.length < n) (hfit : (f.value h a).2.top ≤ heapSize.toNat) :
    wp (evalExprN h n) (Yields h s (f.value h a)) (fun x _ => Trapped (f.value h a).2 x) s := by
  induction f generalizing n s a with
  | last b p =>
    obtain ⟨n, rfl⟩ : ∃ m, n = m + 1 := ⟨n - 1, by omega⟩
    rw [Phrase.text, List.append_assoc] at hrest
    rw [evalExprN]
    refine wp_bind.mpr (wp_mono (denote_operand _ hr hsafe hrest hf.1 hfit) ?_ fun _ _ => id)
    rintro _ t ⟨v, rfl, hy, hrest'⟩
    exact denote_evalTail_last _ hy hrest' hf.2
  | unclosed b q =>
    obtain ⟨n, rfl⟩ : ∃ m, n = m + 1 := ⟨n - 1, by omega⟩
    rw [Phrase.text, List.append_assoc] at hrest
    rw [evalExprN]
    refine wp_bind.mpr (wp_mono (denote_unclosed _ hr hsafe hrest hf) ?_ fun _ _ => id)
    rintro _ t ⟨v, rfl, hy⟩
    exact hy
  | op b p b' o f ih =>
    obtain ⟨n, rfl⟩ : ∃ m, n = m + 1 := ⟨n - 1, by omega⟩
    have hlen : f.text.length < n := by
      simp only [Phrase.text, List.length_append, List.length_cons] at hn
      omega
    have hends : p.Ends (b'.text ++ o.byte :: (f.text ++ tail)) :=
      hf.1.congr (by cases b'.text <;> rfl)
    have hrest' : s.rest = b.text ++ (p.text ++ (b'.text ++ o.byte :: (f.text ++ tail))) := by
      rw [hrest, Phrase.text]
      simp only [List.append_assoc, List.cons_append]
    have hgrows := (o.evolves_apply (h := h) (p.value h a).1 (f.value h (p.value h a).2).1
      (f.value h (p.value h a).2).2).toGrows
    have hright : (f.value h (p.value h a).2).2.top ≤ heapSize.toNat := hgrows.top.trans hfit
    have hleft := (f.evolves_value (h := h) (p.value h a).2).top.trans hright
    rw [evalExprN]
    refine wp_bind.mpr (wp_mono (denote_operand _ hr hsafe hrest' hends hleft) ?_ fun _ _ => id)
    rintro _ t ⟨v, rfl, hy, hrest''⟩
    exact denote_tail hy hrest'' (fun u hu hus => ih hu hy.safe hus hf.2 hlen hright)
      (f.evolves_value _).toGrows hfit

/-- **`eval_expr` returns the value of the phrase in front of the cursor**, or traps; without an
error it is behind it. -/
theorem denote_phrase {f : Phrase} (hr : Rep h s a) (hsafe : a.Safe)
    (hrest : s.rest = f.text ++ tail) (hf : f.Ends tail)
    (hfit : (f.value h a).2.top ≤ heapSize.toNat) :
    wp (evalExpr h) (fun v t => Yields h s (f.value h a) v t ∧
        ((f.value h a).2.hadError = false → t.rest = tail.dropWhile isspace))
      (fun x _ => Trapped (f.value h a).2 x) s := by
  have hlen := congrArg List.length hrest
  rw [Machine.rest, List.length_drop, List.length_append] at hlen
  have hvalue : wp (evalExpr h) (Yields h s (f.value h a))
      (fun x _ => Trapped (f.value h a).2 x) s :=
    denote_phraseN f hr hsafe hrest hf (by omega) hfit
  cases he : f.expr? with
  | none =>
    refine wp_mono hvalue (fun v t hy => ⟨hy, fun herr => ?_⟩) fun _ _ => id
    exact absurd (herr.symm.trans (Phrase.hadError_value he a)) Bool.noConfusion
  | some e =>
    rw [Phrase.text_of_expr? he] at hrest
    exact wp_mono (wp_and hvalue (evalExpr_text h hrest (Phrase.ends_of_expr? he hf)))
      (fun _ _ ht => ⟨ht.1, fun _ => ht.2.rest⟩) fun _ _ hx => hx.1

/-! ## Sentences -/

/-- Blanks behind a word end it. -/
theorem isIdent_headD_blanks {b : Blanks} (hys : isIdent (ys.headD 0) = false) :
    isIdent ((b.text ++ ys).headD 0) = false := by
  cases hb : b.text with
  | nil => exact hys
  | cons c cs => exact isIdent_of_isspace (b.blank c (by simp [hb]))

theorem dropWhile_blanks (b : Blanks) (hys : isspace (ys.headD 0) = false) :
    (b.text ++ ys).dropWhile isspace = ys := by
  rw [List.dropWhile_append_of_pos b.blank]
  cases ys with
  | nil => rfl
  | cons c cs => exact List.dropWhile_cons_of_neg (Bool.eq_false_iff.mp hys)

/-- **A sentence does what it means**, or traps. -/
theorem denote_sentence {c : Sentence} (hr : Rep h s a) (hsafe : a.Safe)
    (hread : Front s.rest c ys) (hfit : (c.exec h a).top ≤ heapSize.toNat) :
    wp (plainStmt h) (fun _ t => Rep h t (c.exec h a) ∧ (c.exec h a).Safe ∧
        ((c.exec h a).hadError = false → t.rest = ys))
      (fun x _ => Trapped (c.exec h a) x) s.seen := by
  have hskipped : Rep h (skipped s) a := hr.congr rfl rfl rfl rfl rfl rfl
  generalize hxs : s.rest = xs at hread
  refine wp_plainStmt.mpr ?_
  cases hread with
  | @skip b ys hs ha =>
    have hskip : (skipped s).rest = ys := rest_skipped_of_blanks hxs hs
    have hcur : isalpha (skipped s).cur = false := by rwa [cur_eq hskip]
    refine ⟨fun ha' => absurd (ha'.symm.trans hcur) Bool.noConfusion, fun _ => ?_⟩
    refine ⟨hskipped.congr rfl rfl rfl rfl rfl rfl, hsafe, fun _ => ?_⟩
    rw [stepped, Machine.rest, ← List.drop_drop, ← Machine.rest, hskip, List.drop_one]
  | @name b n b' ys hid hs heq =>
    have hskip : (skipped s).rest = n.text ++ (b'.text ++ ys) :=
      rest_skipped_of_blanks hxs (isspace_headD_prim (p := .var n) hid)
    obtain ⟨ha, hrest, hbuf⟩ := named_text hskip hid
    rw [dropWhile_blanks _ hs] at hrest
    refine ⟨fun _ => ⟨fun heq' => absurd ((cur_eq hrest).symm.trans heq') heq, fun _ => ?_⟩,
      fun ha' => absurd (ha.symm.trans ha') Bool.noConfusion⟩
    exact ⟨hskipped.named rfl rfl rfl rfl hbuf rfl, hsafe, fun _ => hrest⟩
  | @assign b n b' f b'' ys hends hs =>
    have hid : isIdent ((b'.text ++ chr '=' :: (f.text ++ (b''.text ++ ys))).headD 0) = false :=
      isIdent_headD_blanks rfl
    have hskip : (skipped s).rest =
        n.text ++ (b'.text ++ chr '=' :: (f.text ++ (b''.text ++ ys))) :=
      rest_skipped_of_blanks hxs (isspace_headD_prim (p := .var n) hid)
    obtain ⟨ha, hrest, hbuf⟩ := named_text hskip hid
    rw [dropWhile_blanks b' (by rfl)] at hrest
    have hnamed : Rep h (named s) { a with identBuf := n.name } :=
      hskipped.named rfl rfl rfl rfl hbuf rfl
    have hrhs : Rep h (rhs s) { a with identBuf := n.name } :=
      hnamed.congr rfl rfl rfl rfl rfl rfl
    have hgrows := Sentence.rhs_grows (h := h) b n b' f b'' a
    refine ⟨fun _ => ⟨fun _ => ?_, fun hne => absurd (cur_eq hrest) hne⟩,
      fun ha' => absurd (ha.symm.trans ha') Bool.noConfusion⟩
    refine wp_mono (denote_phrase hrhs hsafe (rest_advance hrest) hends (hgrows.top.trans hfit))
      (fun v u hu => ?_) fun x _ hx => hx.grows hgrows
    obtain ⟨hy, hafter⟩ := hu
    rw [dropWhile_blanks _ hs] at hafter
    obtain rfl := hy.var
    rw [hy.rep.hadError]
    have hexec : (Sentence.assign b n b' f b'').exec h a =
        if (f.value h { a with identBuf := n.name }).2.hadError then
          (f.value h { a with identBuf := n.name }).2
        else (f.value h { a with identBuf := n.name }).2.assigned
          (f.value h { a with identBuf := n.name }).1 := rfl
    rw [hexec]
    cases herr : (f.value h { a with identBuf := n.name }).2.hadError with
    | true =>
      simp only [if_true]
      exact ⟨hy.rep, hy.safe, fun he => absurd (herr.symm.trans he) Bool.noConfusion⟩
    | false =>
      simp only [Bool.false_eq_true, if_false]
      refine ⟨hy.rep.assigned hy.shown, ?_, fun _ => ?_⟩
      · have hdivisions : ((f.value h { a with identBuf := n.name }).2.assigned
            (f.value h { a with identBuf := n.name }).1).divisions =
            (f.value h { a with identBuf := n.name }).2.divisions := by
          rw [Env.assigned]
          split
          · rfl
          · split <;> rfl
        rw [Env.Safe, hdivisions]
        exact hy.safe
      · rw [Machine.rest, assigned_code, assigned_pc, ← Machine.rest, hafter herr]

/-! ## Programs -/

/-- **The main loop runs the sentences in front of it**, up to the first that fails — induction on
them. -/
theorem denote_sentences {cs : List Sentence} {xs : List Byte} (hcs : Cut cs xs) {n : ℕ}
    {s : Machine} {a : Env} (hr : Rep h s a) (hsafe : a.Safe) (herr : a.hadError = false)
    (hxs : s.rest = xs) (hn : cs.length < n) (hfit : (Env.runAll h cs a).top ≤ heapSize.toNat) :
    wp (mshLoop (plainStmt h) n) (fun _ t => Rep h t (Env.runAll h cs a) ∧
        (Env.runAll h cs a).Safe) (fun x _ => Trapped (Env.runAll h cs a) x) s := by
  have hstop {b : Env} {t : Machine} {m : ℕ} (hm : 0 < m) (hb : Rep h t b) (hbs : b.Safe)
      (hend : t.cur = 0 ∨ t.hadError = true) : wp (mshLoop (plainStmt h) m)
        (fun _ u => Rep h u b ∧ b.Safe) (fun x _ => Trapped b x) t := by
    obtain ⟨m, rfl⟩ := Nat.exists_eq_add_of_lt hm
    rw [Nat.zero_add, wp, mshLoop_succ, if_neg (final_iff.mp hend)]
    exact ⟨hb.congr rfl rfl rfl rfl rfl rfl, hbs⟩
  induction hcs generalizing n s a with
  | nil h0 => exact hstop (Nat.zero_lt_of_lt hn) hr hsafe (.inl ((cur_eq hxs).trans h0))
  | @cons xs ys c cs h0 hread hrest ih =>
    obtain ⟨n, rfl⟩ : ∃ m, n = m + 1 := ⟨n - 1, by omega⟩
    have hlen : cs.length < n := Nat.lt_of_succ_lt_succ hn
    have hgo : s.cur ≠ 0 ∧ s.hadError = false := by
      rw [cur_eq hxs]
      exact ⟨h0, hr.hadError.trans herr⟩
    rw [← hxs] at hread
    rw [wp, mshLoop_succ, if_pos hgo]
    rw [Env.runAll] at hfit ⊢
    cases hfail : (c.exec h a).hadError with
    | true =>
      simp only [hfail, if_true] at hfit ⊢
      refine wp_bind.mpr (wp_mono (denote_sentence hr hsafe hread hfit) (fun _ t ht => ?_)
        fun _ _ => id)
      exact hstop (Nat.zero_lt_of_lt hlen) ht.1 ht.2.1 (.inr (ht.1.hadError.trans hfail))
    | false =>
      simp only [hfail, Bool.false_eq_true, if_false] at hfit ⊢
      have hgrows := Env.runAll_grows (h := h) cs (c.exec h a)
      refine wp_bind.mpr (wp_mono (denote_sentence hr hsafe hread (hgrows.top.trans hfit))
        (fun _ t ht => ?_) fun _ _ hx => hx.grows hgrows)
      exact ih ht.1 ht.2.1 hfail (ht.2.2 hfail) hlen hfit

/-- What a text does to a state. -/
def Env.execute (h : Host) (code : List Byte) (a : Env) : Env :=
  Env.runAll h (program code) { a with hadError := false }

/-- **`msh_execute` does what a text means**, whatever the text, or traps. -/
theorem denote_text {code : List Byte} {n : ℕ} (hr : Rep h s a) (hsafe : a.Safe)
    (hn : code.length < n) (hfit : (a.execute h code).top ≤ heapSize.toNat) :
    wp (mshExecute h n code) (fun r t => r = !(a.execute h code).hadError ∧
        Rep h t (a.execute h code) ∧ (a.execute h code).Safe)
      (fun x _ => Trapped (a.execute h code) x) s := by
  obtain ⟨n, rfl⟩ : ∃ m, n = m + 1 := ⟨n - 1, by omega⟩
  have hentered : Rep h (enter code s) { a with hadError := false } :=
    ⟨hr.vars, hr.varCount, hr.top, rfl, hr.identBuf, hr.texts, hr.null⟩
  have hcut := cut_program code
  rw [wp, mshExecute_succ]
  refine wp_bind.mpr (wp_mono (denote_sentences hcut hentered hsafe rfl rfl
    (hcut.length_le.trans_lt hn) hfit) (fun _ t ht => ?_) fun _ _ => id)
  exact ⟨by rw [Env.execute, ← ht.1.hadError], ht.1, ht.2⟩

/-- **Every text has a meaning, and `msh_execute` computes it**, from every machine whose table is
well stored, as long as the heap lasts; unless one of the divisions traps, and then it traps. -/
theorem mshExecute_meaning {code : List Byte} {n : ℕ} (hs : s.WellStored h) (hn : code.length < n)
    (hfit : (s.env.execute h code).top ≤ heapSize.toNat) :
    ((s.env.execute h code).Safe → ∃ t,
        mshExecute h n code s = .ok (!(s.env.execute h code).hadError) t ∧
          Rep h t (s.env.execute h code) ∧ t.WellStored h) ∧
      (¬ (s.env.execute h code).Safe → ∃ t, mshExecute h n code s = .error .divTrap t) := by
  have hdenote := denote_text hs.rep (fun _ hd => absurd hd List.not_mem_nil) hn hfit
  cases hrun : mshExecute h n code s with
  | ok b t =>
    obtain ⟨rfl, hrep, hsafe⟩ := (wp_of_ok hrun).mp hdenote
    exact ⟨fun _ => ⟨t, rfl, hrep, hrep.wellStored⟩, fun hnot => absurd hsafe hnot⟩
  | error e t =>
    obtain ⟨rfl, hnot⟩ := (wp_of_error hrun).mp hdenote
    exact ⟨fun hsafe => absurd hsafe hnot, fun _ => ⟨t, rfl⟩⟩

/-- `x = "a` `+ y`, on the table zeroed at boot: a string that is not closed. -/
theorem mshExecute_meaning_unclosed : ∃ t,
    mshExecute Host.bare 11 (str "x = \"a + y") Machine.boot =
      .ok (!(Machine.boot.env.execute Host.bare (str "x = \"a + y")).hadError) t ∧
        Rep Host.bare t (Machine.boot.env.execute Host.bare (str "x = \"a + y")) ∧
        t.WellStored Host.bare :=
  (mshExecute_meaning (.of_numbers rfl fun _ hi => absurd hi (Nat.not_lt_zero _)) (by decide)
    (by decide +kernel)).1 (by decide +kernel)

/-! ## Blanks -/

/-- The phrase, without its blanks. -/
def Phrase.bare : Phrase → Phrase
  | last _ p => .last .none p
  | unclosed _ q => .unclosed .none q
  | op _ p _ o f => .op .none p .none o f.bare

/-- The sentence, without its blanks; a character stepped over is a blank too. -/
def Sentence.bare : Sentence → Option Sentence
  | skip _ _ => none
  | name _ n _ => some (.name .none n .none)
  | assign _ n _ f _ => some (.assign .none n .none f.bare .none)

/-- The words of a text. -/
def wordsIn (code : List Byte) : List Sentence := (program code).filterMap Sentence.bare

theorem Phrase.value_bare (f : Phrase) (a : Env) : f.bare.value h a = f.value h a := by
  induction f generalizing a with
  | last | unclosed => rfl
  | op _ p _ o f ih =>
    simp only [bare, value]
    rw [ih]

/-- **Blanks mean nothing** — induction on the sentences. -/
theorem Env.runAll_bare (cs : List Sentence) {a : Env} (herr : a.hadError = false) :
    runAll h (cs.filterMap Sentence.bare) a = runAll h cs a := by
  induction cs generalizing a with
  | nil => rfl
  | cons c cs ih =>
    have hstep {c' : Sentence} (hbare : c.bare = some c') (hexec : c'.exec h a = c.exec h a) :
        runAll h ((c :: cs).filterMap Sentence.bare) a = runAll h (c :: cs) a := by
      rw [List.filterMap_cons, hbare, runAll, runAll, hexec]
      split_ifs with he
      · rfl
      · exact ih (Bool.eq_false_iff.mpr he)
    cases c with
    | skip b cs =>
      rw [List.filterMap_cons, runAll, Sentence.exec, herr]
      exact ih herr
    | name b n b' => exact hstep rfl rfl
    | assign b n b' f b'' =>
      refine hstep rfl ?_
      rw [Sentence.exec, Sentence.exec, Phrase.value_bare]

/-- The table, the heap and the buffer are the same. -/
structure Machine.Agrees (s t : Machine) : Prop where
  vars : s.vars = t.vars
  varCount : s.varCount = t.varCount
  heapIndex : s.heapIndex = t.heapIndex
  hadError : s.hadError = t.hadError
  identBuf : s.identBuf = t.identBuf

theorem Rep.agrees (hs : Rep h s a) (ht : Rep h t a) : s.Agrees t where
  vars := funext fun i => (hs.vars i).trans (ht.vars i).symm
  varCount := hs.varCount.trans ht.varCount.symm
  heapIndex := hs.heapIndex.trans ht.heapIndex.symm
  hadError := hs.hadError.trans ht.hadError.symm
  identBuf := hs.identBuf.trans ht.identBuf.symm

/-- **Reformatting a program changes nothing**: texts with the same words, whatever blanks and
other characters stand between them, have the same result and leave the same table. -/
theorem mshExecute_reformat {code code' : List Byte} {n n' : ℕ} (hs : s.WellStored h)
    (hwords : wordsIn code = wordsIn code') (hn : code.length < n) (hn' : code'.length < n')
    (hfit : (s.env.execute h code).top ≤ heapSize.toNat) :
    (∃ b t t', mshExecute h n code s = .ok b t ∧ mshExecute h n' code' s = .ok b t' ∧
        t.Agrees t') ∨
      ∃ t t', mshExecute h n code s = .error .divTrap t ∧
        mshExecute h n' code' s = .error .divTrap t' := by
  have hsame : s.env.execute h code' = s.env.execute h code := by
    rw [Env.execute, Env.execute, ← Env.runAll_bare (program code) rfl,
      ← Env.runAll_bare (program code') rfl]
    exact congrArg (fun cs => Env.runAll h cs _) hwords.symm
  have hsafe : s.env.Safe := fun _ hd => absurd hd List.not_mem_nil
  have hdenote := denote_text hs.rep hsafe hn hfit
  have hdenote' := denote_text hs.rep hsafe hn' (hsame ▸ hfit)
  rw [hsame] at hdenote'
  cases hrun : mshExecute h n code s with
  | ok b t =>
    obtain ⟨hb, hrep, hsafe⟩ := (wp_of_ok hrun).mp hdenote
    cases hrun' : mshExecute h n' code' s with
    | ok b' t' =>
      obtain ⟨hb', hrep', -⟩ := (wp_of_ok hrun').mp hdenote'
      exact .inl ⟨b, t, t', rfl, by rw [hb, hb'], hrep.agrees hrep'⟩
    | error e t' => exact absurd hsafe ((wp_of_error hrun').mp hdenote').2
  | error e t =>
    obtain ⟨rfl, hnot⟩ := (wp_of_error hrun).mp hdenote
    cases hrun' : mshExecute h n' code' s with
    | ok b' t' => exact absurd ((wp_of_ok hrun').mp hdenote').2.2 hnot
    | error e' t' =>
      obtain ⟨rfl, -⟩ := (wp_of_error hrun').mp hdenote'
      exact .inr ⟨t, t', rfl, rfl⟩

/-- Two ways to write a program of two lines. -/
theorem mshExecute_reformat_lines :
    (∃ b t t', mshExecute Host.bare 20 (str "x=1+2\ny=\"a\"") Machine.boot = .ok b t ∧
        mshExecute Host.bare 30 (str " x = 1 + 2 ; y = \"a\"") Machine.boot = .ok b t' ∧
        t.Agrees t') ∨
      ∃ t t', mshExecute Host.bare 20 (str "x=1+2\ny=\"a\"") Machine.boot = .error .divTrap t ∧
        mshExecute Host.bare 30 (str " x = 1 + 2 ; y = \"a\"") Machine.boot =
          .error .divTrap t' :=
  mshExecute_reformat (.of_numbers rfl fun _ hi => absurd hi (Nat.not_lt_zero _)) (by rfl)
    (by decide) (by decide) (by decide +kernel)

end HuskyKernel
