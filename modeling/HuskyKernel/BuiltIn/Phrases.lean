import HuskyKernel.BuiltIn.Syntax

/-!
# BuiltIn/Phrases — how any text is read

The shell makes something of every text.  What `eval_expr` reads is a `Phrase`: an expression, or
one that ends in a string nobody closes.  The main loop reads a `Sentence` at a time: an assignment,
a name that no `=` follows, or a single character, which is stepped over.  `program` cuts a text
into these (`cut_program`); put together again they are the text, up to the NUL the loop stops at
(`Cut.text`).
-/

namespace HuskyKernel

open Scan Msh

/-! ## Phrases -/

/-- What the evaluator reads, whatever the text. -/
inductive Phrase where
  | last (b : Blanks) (p : Prim)
  | unclosed (b : Blanks) (q : Quoted)
  | op (b : Blanks) (p : Prim) (b' : Blanks) (o : Op) (f : Phrase)

namespace Phrase

def text : Phrase → List Byte
  | last b p => b.text ++ p.text
  | unclosed b q => b.text ++ chr '"' :: q.text
  | op b p b' o f => b.text ++ (p.text ++ (b'.text ++ o.byte :: f.text))

/-- `tail` does not go on with the phrase in front of it. -/
def Ends (tail : List Byte) : Phrase → Prop
  | last _ p => p.Ends tail ∧ isOp ((tail.dropWhile isspace).headD 0) = false
  | unclosed _ _ => tail.headD 0 = 0
  | op _ p b' o f => p.Ends (b'.text ++ [o.byte]) ∧ f.Ends tail

/-- The expression it is, if every string in it is closed. -/
def expr? : Phrase → Option Expr
  | last b p => some (.last b p)
  | unclosed _ _ => none
  | op b p b' o f => f.expr?.map (.op b p b' o)

variable {f : Phrase} {e : Expr} {tail : List Byte}

theorem text_of_expr? (h : f.expr? = some e) : f.text = e.text := by
  induction f generalizing e with
  | last b p => rw [← Option.some.inj h, text, Expr.text]
  | unclosed b q => cases h
  | op b p b' o f ih =>
    obtain ⟨e, he, rfl⟩ := Option.map_eq_some_iff.mp h
    rw [text, Expr.text, ih he]

theorem ends_of_expr? (h : f.expr? = some e) (hf : f.Ends tail) : e.Ends tail := by
  induction f generalizing e with
  | last b p =>
    rw [← Option.some.inj h]
    exact hf
  | unclosed b q => cases h
  | op b p b' o f ih =>
    obtain ⟨e, he, rfl⟩ := Option.map_eq_some_iff.mp h
    exact ⟨hf.1, ih he hf.2⟩

end Phrase

/-! ## Cutting a text -/

/-- The blanks in front of a text. -/
def blanksOf (xs : List Byte) : Blanks :=
  ⟨xs.takeWhile isspace, fun _ hc => List.mem_takeWhile_imp hc⟩

variable {xs ys zs : List Byte} {p : Byte → Bool}

theorem headD_takeWhile (h : p (xs.headD 0) = true) :
    (xs.takeWhile p).headD 0 = xs.headD 0 := by
  cases xs with
  | nil => rfl
  | cons c cs =>
    rw [List.headD_cons] at h
    rw [List.takeWhile_cons_of_pos h]
    rfl

/-- A text that does not start with a NUL starts with its first character. -/
theorem eq_cons_of_headD (xs : List Byte) (h : xs.headD 0 ≠ 0) : xs = xs.headD 0 :: xs.tail := by
  cases xs with
  | nil => exact absurd rfl h
  | cons c cs => rfl

theorem blanksOf_append (xs : List Byte) : (blanksOf xs).text ++ xs.dropWhile isspace = xs :=
  List.takeWhile_append_dropWhile

theorem headD_eq_zero_of_inString (h : inString (xs.headD 0) = false) (hq : xs.headD 0 ≠ chr '"') :
    xs.headD 0 = 0 := by
  rw [inString, Bool.and_eq_false_iff, decide_eq_false_iff_not, decide_eq_false_iff_not] at h
  exact h.elim (absurd hq) not_not.mp

/-- The identifier in front of a text. -/
def identOf (xs : List Byte) (h : isalpha (xs.headD 0) = true) : Ident where
  text := xs.takeWhile isIdent
  letter := by
    rw [headD_takeWhile (by rw [isIdent, isalnum, h]; rfl)]
    exact h
  chars _ hc := List.mem_takeWhile_imp hc

/-- The literal in front of a text. -/
def numberOf (xs : List Byte) (h : isdigit (xs.headD 0) = true) : Number where
  text := xs.takeWhile isdigit
  digit := by
    rw [headD_takeWhile h]
    exact h
  digits _ hc := List.mem_takeWhile_imp hc

/-- The inside of the string a text goes on with. -/
def quotedOf (xs : List Byte) : Quoted :=
  ⟨xs.takeWhile inString, fun _ hc => List.mem_takeWhile_imp hc⟩

/-- The operand in front of a text, or the string there that is not closed, and what is left. -/
def readOperand (xs : List Byte) : (Prim ⊕ Quoted) × List Byte :=
  if hd : isdigit (xs.headD 0) = true then
    (.inl (.number (numberOf xs hd)), xs.dropWhile isdigit)
  else if xs.headD 0 = chr '"' then
    if (xs.tail.dropWhile inString).headD 0 = chr '"' then
      (.inl (.string (quotedOf xs.tail)), (xs.tail.dropWhile inString).tail)
    else (.inr (quotedOf xs.tail), xs.tail.dropWhile inString)
  else if ha : isalpha (xs.headD 0) = true then
    (.inl (.var (identOf xs ha)), xs.dropWhile isIdent)
  else (.inl .empty, xs)

/-- What stands in front of a text, off blanks. -/
inductive Starts (xs : List Byte) : Prim ⊕ Quoted → List Byte → Prop
  | prim {q : Prim} {zs : List Byte} (htext : q.text ++ zs = xs) (hends : q.Ends zs) :
      Starts xs (.inl q) zs
  | unclosed {q : Quoted} {zs : List Byte} (htext : chr '"' :: (q.text ++ zs) = xs)
      (hends : zs.headD 0 = 0) : Starts xs (.inr q) zs

/-- **An operand is cut off.** -/
theorem starts_readOperand (hs : isspace (xs.headD 0) = false) :
    Starts xs (readOperand xs).1 (readOperand xs).2 := by
  rw [readOperand]
  split_ifs with hd hq hclose ha
  · exact .prim List.takeWhile_append_dropWhile (headD_dropWhile isdigit_zero)
  · have hopen : xs = chr '"' :: xs.tail := hq ▸ eq_cons_of_headD xs (by rw [hq]; decide)
    have hrest := eq_cons_of_headD (xs.tail.dropWhile inString) (by rw [hclose]; decide)
    refine .prim ?_ trivial
    rw [Prim.text, List.cons_append, List.append_assoc, List.singleton_append, ← hclose, ← hrest,
      quotedOf, List.takeWhile_append_dropWhile, hclose, ← hopen]
  · have hopen : xs = chr '"' :: xs.tail := hq ▸ eq_cons_of_headD xs (by rw [hq]; decide)
    refine .unclosed ?_ (headD_eq_zero_of_inString (headD_dropWhile rfl) hclose)
    rw [quotedOf, List.takeWhile_append_dropWhile, ← hopen]
  · exact .prim List.takeWhile_append_dropWhile (headD_dropWhile isIdent_zero)
  · exact .prim rfl ⟨hs, Bool.eq_false_iff.mpr hd, hq, Bool.eq_false_iff.mpr ha⟩

/-- The phrase in front of a text, and what is left of it. -/
def readPhrase : ℕ → List Byte → Phrase × List Byte
  | 0, xs => (.last .none .empty, xs)
  | n + 1, xs =>
    match readOperand (xs.dropWhile isspace) with
    | (.inr q, zs) => (.unclosed (blanksOf xs) q, zs)
    | (.inl q, zs) =>
      let ys := zs.dropWhile isspace
      if ho : isOp (ys.headD 0) = true then
        let r := readPhrase n ys.tail
        (.op (blanksOf xs) q (blanksOf zs) ⟨ys.headD 0, ho⟩ r.1, r.2)
      else (.last (blanksOf xs) q, zs)

/-- **A phrase is cut off** — induction on the bound, which no text reaches. -/
theorem readPhrase_spec {n : ℕ} (hn : xs.length < n) :
    (readPhrase n xs).1.text ++ (readPhrase n xs).2 = xs ∧
      (readPhrase n xs).1.Ends (readPhrase n xs).2 := by
  induction n generalizing xs with
  | zero => exact absurd hn (Nat.not_lt_zero _)
  | succ n ih =>
    have hstarts := starts_readOperand (headD_dropWhile (l := xs) isspace_zero)
    have hblanks := blanksOf_append xs
    rw [readPhrase]
    generalize readOperand (xs.dropWhile isspace) = r at hstarts ⊢
    obtain ⟨_ | q, zs⟩ := r
    case inr =>
      cases hstarts with
      | unclosed htext hends =>
        refine ⟨?_, hends⟩
        rw [Phrase.text, List.append_assoc, List.cons_append, htext, hblanks]
    case inl q =>
      cases hstarts with
      | prim htext hends =>
        replace htext : q.text ++ zs = xs.dropWhile isspace := htext
        replace hends : q.Ends zs := hends
        have hzs := blanksOf_append zs
        dsimp only
        split_ifs with ho
        · have hne : (zs.dropWhile isspace).headD 0 ≠ 0 := by
            intro h0
            rw [h0] at ho
            cases ho
          have hys := eq_cons_of_headD _ hne
          have hlen : (zs.dropWhile isspace).tail.length < n := by
            have hxs := congrArg List.length hblanks
            have hps := congrArg List.length htext
            have hz := congrArg List.length hzs
            have hy := congrArg List.length hys
            rw [List.length_append] at hxs hps hz
            rw [List.length_cons] at hy
            omega
          obtain ⟨htail, hrest⟩ := ih hlen
          have hhead : ((blanksOf zs).text ++ [(zs.dropWhile isspace).headD 0]).headD 0 =
              zs.headD 0 := by
            refine Eq.trans ?_ (congrArg (fun l => l.headD 0) (hys ▸ hzs))
            cases (blanksOf zs).text <;> rfl
          refine ⟨?_, hends.congr hhead, hrest⟩
          simp only [Phrase.text, List.append_assoc, List.cons_append]
          rw [htail, ← hys, hzs, htext, hblanks]
        · refine ⟨?_, hends, Bool.eq_false_iff.mpr ho⟩
          rw [Phrase.text, List.append_assoc, htext, hblanks]

/-! ## Sentences -/

/-- What the main loop reads in a round. -/
inductive Sentence where
  | skip (b : Blanks) (c : List Byte)
  | name (b : Blanks) (n : Ident) (b' : Blanks)
  | assign (b : Blanks) (n : Ident) (b' : Blanks) (f : Phrase) (b'' : Blanks)

def Sentence.text : Sentence → List Byte
  | skip b c => b.text ++ c
  | name b n b' => b.text ++ (n.text ++ b'.text)
  | assign b n b' f b'' => b.text ++ (n.text ++ (b'.text ++ chr '=' :: (f.text ++ b''.text)))

/-- What stands in front of a text, and what is left of it. -/
inductive Front : List Byte → Sentence → List Byte → Prop
  | skip {b : Blanks} {ys : List Byte} (hs : isspace (ys.headD 0) = false)
      (ha : isalpha (ys.headD 0) = false) : Front (b.text ++ ys) (.skip b (ys.take 1)) ys.tail
  | name {b : Blanks} {n : Ident} {b' : Blanks} {ys : List Byte}
      (hid : isIdent ((b'.text ++ ys).headD 0) = false) (hs : isspace (ys.headD 0) = false)
      (heq : ys.headD 0 ≠ chr '=') : Front (b.text ++ (n.text ++ (b'.text ++ ys))) (.name b n b') ys
  | assign {b : Blanks} {n : Ident} {b' : Blanks} {f : Phrase} {b'' : Blanks} {ys : List Byte}
      (hends : f.Ends (b''.text ++ ys)) (hs : isspace (ys.headD 0) = false) :
      Front (b.text ++ (n.text ++ (b'.text ++ chr '=' :: (f.text ++ (b''.text ++ ys)))))
        (.assign b n b' f b'') ys

/-- The sentence in front of a text, and what is left of it. -/
def readSentence (xs : List Byte) : Sentence × List Byte :=
  let ys := xs.dropWhile isspace
  if ha : isalpha (ys.headD 0) = true then
    let zs := ys.dropWhile isIdent
    let ws := zs.dropWhile isspace
    if ws.headD 0 = chr '=' then
      let r := readPhrase ws.length ws.tail
      (.assign (blanksOf xs) (identOf ys ha) (blanksOf zs) r.1 (blanksOf r.2),
        r.2.dropWhile isspace)
    else (.name (blanksOf xs) (identOf ys ha) (blanksOf zs), ws)
  else (.skip (blanksOf xs) (ys.take 1), ys.tail)

/-- **A sentence is cut off.** -/
theorem front_readSentence (xs : List Byte) :
    Front xs (readSentence xs).1 (readSentence xs).2 := by
  have hxs := blanksOf_append xs
  have hspace : isspace ((xs.dropWhile isspace).headD 0) = false := headD_dropWhile isspace_zero
  rw [readSentence]
  dsimp only
  generalize xs.dropWhile isspace = ys at hxs hspace ⊢
  split_ifs with ha heq
  · have hys : (identOf ys ha).text ++ ys.dropWhile isIdent = ys :=
      List.takeWhile_append_dropWhile
    generalize ys.dropWhile isIdent = zs at hys heq ⊢
    have hzs := blanksOf_append zs
    have hws := eq_cons_of_headD (zs.dropWhile isspace) (by rw [heq]; decide)
    rw [heq] at hws
    have hlen : (zs.dropWhile isspace).tail.length < (zs.dropWhile isspace).length := by
      have hlength := congrArg List.length hws
      rw [List.length_cons] at hlength
      omega
    obtain ⟨htext, hends⟩ := readPhrase_spec hlen
    generalize readPhrase (zs.dropWhile isspace).length (zs.dropWhile isspace).tail = r
      at htext hends ⊢
    have hr := blanksOf_append r.2
    have hreads : Front ((blanksOf xs).text ++ ((identOf ys ha).text ++ ((blanksOf zs).text ++
        chr '=' :: (r.1.text ++ ((blanksOf r.2).text ++ r.2.dropWhile isspace)))))
        (.assign (blanksOf xs) (identOf ys ha) (blanksOf zs) r.1 (blanksOf r.2))
        (r.2.dropWhile isspace) :=
      .assign (hr.symm ▸ hends) (headD_dropWhile isspace_zero)
    rwa [hr, htext, ← hws, hzs, hys, hxs] at hreads
  · have hys : (identOf ys ha).text ++ ys.dropWhile isIdent = ys :=
      List.takeWhile_append_dropWhile
    have hid : isIdent ((ys.dropWhile isIdent).headD 0) = false := headD_dropWhile isIdent_zero
    generalize ys.dropWhile isIdent = zs at hys heq hid ⊢
    have hzs := blanksOf_append zs
    have hreads : Front ((blanksOf xs).text ++ ((identOf ys ha).text ++ ((blanksOf zs).text ++
        zs.dropWhile isspace))) (.name (blanksOf xs) (identOf ys ha) (blanksOf zs))
        (zs.dropWhile isspace) :=
      .name (hzs.symm ▸ hid) (headD_dropWhile isspace_zero) heq
    rwa [hzs, hys, hxs] at hreads
  · have hreads : Front ((blanksOf xs).text ++ ys) (.skip (blanksOf xs) (ys.take 1)) ys.tail :=
      .skip hspace (Bool.eq_false_iff.mpr ha)
    rwa [hxs] at hreads

theorem Front.text {c : Sentence} (h : Front xs c ys) : xs = c.text ++ ys := by
  cases h with
  | @skip b ys hs ha =>
    rw [Sentence.text, List.append_assoc, ← List.drop_one, List.take_append_drop]
  | name => simp only [Sentence.text, List.append_assoc]
  | assign => simp only [Sentence.text, List.append_assoc, List.cons_append]

/-- A sentence takes something off a text, unless that is at its end. -/
theorem Front.length_lt {c : Sentence} (h : Front xs c ys) (h0 : xs.headD 0 ≠ 0) :
    ys.length < xs.length := by
  cases h with
  | @skip b ys hs ha =>
    rw [List.length_append, List.length_tail]
    cases hb : b.text with
    | nil =>
      rw [hb, List.nil_append] at h0
      have hys := congrArg List.length (eq_cons_of_headD _ h0)
      rw [List.length_cons, List.length_tail] at hys
      rw [List.length_nil]
      omega
    | cons c cs =>
      rw [List.length_cons]
      omega
  | @name b n b' ys =>
    have hn : n.text ≠ [] := by
      intro hnil
      have hletter := n.letter
      rw [hnil] at hletter
      cases hletter
    have hpos := List.length_pos_iff.mpr hn
    simp only [List.length_append]
    omega
  | assign =>
    simp only [List.length_append, List.length_cons]
    omega

/-! ## Programs -/

/-- The sentences of a text, up to the NUL the main loop stops at. -/
inductive Cut : List Sentence → List Byte → Prop
  | nil {xs : List Byte} (h : xs.headD 0 = 0) : Cut [] xs
  | cons {xs ys : List Byte} {c : Sentence} {cs : List Sentence} (h : xs.headD 0 ≠ 0)
      (hread : Front xs c ys) (hrest : Cut cs ys) : Cut (c :: cs) xs

/-- The sentences, at most `n` of them. -/
def readProgram : ℕ → List Byte → List Sentence
  | 0, _ => []
  | n + 1, xs =>
    if xs.headD 0 = 0 then []
    else (readSentence xs).1 :: readProgram n (readSentence xs).2

/-- The sentences of a text. -/
def program (code : List Byte) : List Sentence := readProgram code.length code

theorem cut_readProgram {n : ℕ} (hn : xs.length ≤ n) : Cut (readProgram n xs) xs := by
  induction n generalizing xs with
  | zero =>
    rw [List.length_eq_zero_iff.mp (Nat.le_zero.mp hn)]
    exact .nil rfl
  | succ n ih =>
    rw [readProgram]
    split_ifs with h0
    · exact .nil h0
    · have hread := front_readSentence xs
      exact .cons h0 hread (ih (by have := hread.length_lt h0; omega))

/-- **Every text is cut into sentences.** -/
theorem cut_program (code : List Byte) : Cut (program code) code := cut_readProgram le_rfl

/-- **Put together, the sentences are the text**, up to a NUL. -/
theorem Cut.text {cs : List Sentence} (h : Cut cs xs) :
    ∃ ys, xs = cs.flatMap Sentence.text ++ ys ∧ ys.headD 0 = 0 := by
  induction h with
  | @nil xs h => exact ⟨xs, rfl, h⟩
  | cons h hread hrest ih =>
    obtain ⟨ys, htext, h0⟩ := ih
    exact ⟨ys, by rw [hread.text, htext, List.flatMap_cons, List.append_assoc], h0⟩

theorem Cut.length_le {cs : List Sentence} (h : Cut cs xs) : cs.length ≤ xs.length := by
  induction h with
  | nil => exact Nat.zero_le _
  | cons h hread hrest ih => exact Nat.succ_le_of_lt (ih.trans_lt (hread.length_lt h))

end HuskyKernel
