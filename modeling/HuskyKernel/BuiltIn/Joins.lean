import HuskyKernel.BuiltIn.Pointers

/-!
# BuiltIn/Joins — string literals joined by `+`

The literals are copied to the heap from left to right, and then joined from right to left, each
concatenation in a block of its own.  If the heap has room for all of that (`Join.room`) the value
is the text of all literals (`evalExpr_join`): every move stores one string in the block it has
asked for, which is exactly as long (`Move.FillsBlock`), and nothing else is written to.
-/

namespace HuskyKernel

open Wp Scan Msh

/-! ## The text and its blocks -/

/-- `+`. -/
def Op.plus : Op := ⟨chr '+', by decide⟩

/-- String literals with `+` between them, and the blanks in front of each. -/
inductive Join where
  | last (b : Blanks) (q : Quoted)
  | plus (b : Blanks) (q : Quoted) (b' : Blanks) (j : Join)

namespace Join

/-- A join is an expression. -/
def expr : Join → Expr
  | last b q => .last b (.string q)
  | plus b q b' j => .op b (.string q) b' .plus j.expr

/-- The text of all literals. -/
def joined : Join → List Byte
  | last _ q => q.text
  | plus _ q _ j => q.text ++ j.joined

/-- The bytes the heap has to have left: each literal and each concatenation with its NUL. -/
def room : Join → ℕ
  | last _ q => q.text.length + 1
  | plus _ q _ j => q.text.length + 1 + j.room + ((q.text ++ j.joined).length + 1)

end Join

/-- The move asks for a block, stores a string that fills it, and writes to nothing else. -/
def Move.FillsBlock (h : Host) (m : Move) : Prop :=
  ∃ text, m.request = some (text.length + 1) ∧ m.start.Room (text.length + 1) ∧
    m.block h = m.start.next h ∧ StoresText h text m.start (m.stop h)

/-- From `s` to `t` nothing has been written to but the blocks handed out. -/
structure WritesBlocks (h : Host) (s t : Machine) : Prop where
  le : s.heapIndex.toNat ≤ t.heapIndex.toNat
  mem : ∀ x : Word, ¬ (h.heap.base.toNat + s.heapIndex.toNat ≤ x.toNat ∧
    x.toNat < h.heap.base.toNat + t.heapIndex.toNat) → t.mem x = s.mem x

variable {h : Host} {s t u : Machine} {b : Blanks} {q : Quoted} {j : Join} {zs : List Byte}
  {left right : MshVar} {l r text : List Byte}

theorem WritesBlocks.trans (hst : WritesBlocks h s t) (htu : WritesBlocks h t u) :
    WritesBlocks h s u := by
  have hle := hst.le
  have hle' := htu.le
  refine ⟨hle.trans hle', fun x hx => ?_⟩
  exact (htu.mem x fun hx' => hx (by omega)).trans (hst.mem x fun hx' => hx (by omega))

theorem WritesBlocks.fills (hst : WritesBlocks h s t)
    (ht : t.heapIndex.toNat ≤ heapSize.toNat) : Fills h s t :=
  ⟨hst.le, fun x hx => hst.mem x fun hx' => hx ⟨hx'.1, by omega⟩⟩

/-- A stored string is inside its block. -/
theorem StoresText.writesBlocks (hst : StoresText h text s t) (hroom : s.Room (text.length + 1)) :
    WritesBlocks h s t := by
  have hindex := hst.toNat_heapIndex hroom
  refine ⟨by omega, fun x hx => ?_⟩
  have hsize : heapSize.toNat < Mem.span := by decide
  have hlen : (text ++ [0]).length = text.length + 1 := by simp
  rw [hst.mem, s.next_eq h]
  unfold Machine.Room at hroom
  refine Mem.store_of_not_within (by omega) fun hw => hx ?_
  rw [hlen] at hw
  have := free_of_within hroom hw
  omega

/-! ## The moves -/

/-- **A literal fills its block.** -/
theorem run_literal (hrest : s.rest = b.text ++ (chr '"' :: (q.text ++ chr '"' :: zs)))
    (hroom : s.Room (q.text.length + 1)) : ∃ t, (Move.operand s).run h =
      .ok (.left { MshVar.zero with type := .str, val := s.next h }) t ∧
      StoresText h q.text s t ∧ t.hadError = s.hadError ∧ t.rest = zs ∧
      (Move.operand s).FillsBlock h := by
  have hskip : (skipped s).rest = chr '"' :: (q.text ++ chr '"' :: zs) :=
    rest_skipped_of_blanks hrest rfl
  have hq : (skipped s).cur = chr '"' := cur_eq hskip
  have hliteral := wp_stringLiteral_text (h := h) (E := fun _ _ => False) hskip q.chars hroom
  obtain ⟨o, t, hrun, rfl, ⟨pc, reach, ht⟩, hzs⟩ := wp_returns.mp hliteral
  have hst : StoresText h q.text s t := ht ▸ ⟨rfl, rfl⟩
  have herr : t.hadError = s.hadError := ht ▸ rfl
  have hread : (Move.operand s).run h =
      .ok (.left { MshVar.zero with type := .str, val := s.next h }) t :=
    eq_ok_iff.mpr (wp_operand (fun _ => eq_ok_iff.mp hrun) (fun hne => absurd hq hne)
      (fun hne => absurd hq hne) fun hne => absurd hq hne)
  have hrequest := request_literal hskip q.chars
  exact ⟨t, hread, hst, herr, hzs, q.text, hrequest, hroom, block_eq hrequest hroom,
    Move.stop_of_ok hread ▸ hst⟩

/-- **A concatenation fills its block.** -/
theorem run_join (hleft : left.type = .str) (hright : right.type = .str)
    (hl : Str h.heap s.mem s.heapIndex.toNat left.val l)
    (hr : Str h.heap s.mem s.heapIndex.toNat right.val r)
    (hroom : s.Room ((l ++ r).length + 1)) :
    ∃ t, operate h .plus left right s = .ok { left with val := s.next h } t ∧
      StoresText h (l ++ r) s t ∧ t.hadError = s.hadError ∧ t.rest = s.rest ∧
      (Move.operation .plus left right s).FillsBlock h := by
  have hc : commonType left.type right.type = .str := by rw [hleft, hright]; rfl
  have hunify : unify h left right s = .ok (.str, left, right) s := by
    have heq : ¬ left.type ≠ right.type := not_not.mpr (hleft.trans hright.symm)
    rw [unify, if_neg heq, hleft]
    rfl
  have hrequest : (Move.operation .plus left right s).request = some ((l ++ r).length + 1) := by
    rw [Move.request, if_pos ⟨rfl, hc⟩, hl.text, hr.text, List.length_append]
    rfl
  have happly : wp (operate h .plus left right) (fun v t => v = { left with val := s.next h } ∧
      StoresText h (l ++ r) s t ∧ t.hadError = s.hadError ∧ t.rest = s.rest)
      (fun _ _ => False) s := by
    rw [operate, wp_bind, wp_of_ok hunify]
    unfold applyOp
    simp only [hleft]
    refine wp_bind.mpr (Iff.mpr (wp_of_ok (concat_eq hl hr hroom)) ?_)
    exact ⟨rfl, ⟨rfl, rfl⟩, rfl, rfl⟩
  obtain ⟨v, t, hrun, rfl, hst, herr, hrest⟩ := wp_returns.mp happly
  refine ⟨t, hrun, hst, herr, hrest, l ++ r, hrequest, hroom, block_eq hrequest hroom, ?_⟩
  rw [Move.stop_of_ok (run_operation_ok hrun)]
  exact hst

/-! ## The evaluation -/

/-- From `s`, evaluation has come to the joined text, with one block for each of its strings. -/
structure Joins (h : Host) (j : Join) (s : Machine) (v : MshVar) (t : Machine) : Prop where
  type : v.type = .str
  str : Str h.heap t.mem t.heapIndex.toNat v.val j.joined
  writes : WritesBlocks h s t
  heapIndex : t.heapIndex.toNat = s.heapIndex.toNat + j.room
  hadError : t.hadError = s.hadError

theorem Quoted.zero_notMem (q : Quoted) : 0 ∉ q.text := fun hmem =>
  absurd (q.chars 0 hmem) (by decide)

/-- A literal, joined to nothing. -/
theorem joins_last (hst : StoresText h q.text s t) (hroom : s.Room (q.text.length + 1))
    (herr : t.hadError = s.hadError) : Joins h (.last b q) s
      { MshVar.zero with type := .str, val := s.next h } (skipped t) where
  type := rfl
  str := hst.str hroom q.zero_notMem
  writes := ⟨(hst.writesBlocks hroom).le, (hst.writesBlocks hroom).mem⟩
  heapIndex := hst.toNat_heapIndex hroom
  hadError := herr

/-- A literal, joined to what is behind it. -/
theorem joins_plus {v : MshVar} {x : Machine} (hst : StoresText h q.text s t)
    (hfirst : s.Room (q.text.length + 1)) (herr : t.hadError = s.hadError)
    (hj : Joins h j (pastOp t) v u) (hlast : u.Room ((q.text ++ j.joined).length + 1))
    (hst' : StoresText h (q.text ++ j.joined) u x) (herr' : x.hadError = u.hadError) :
    Joins h (.plus b q b' j) s { MshVar.zero with type := .str, val := u.next h } x where
  type := rfl
  str := hst'.str hlast fun hmem =>
    (List.mem_append.mp hmem).elim q.zero_notMem hj.str.zero_notMem
  writes :=
    have hwrites : WritesBlocks h t u := ⟨hj.writes.le, hj.writes.mem⟩
    ((hst.writesBlocks hfirst).trans hwrites).trans (hst'.writesBlocks hlast)
  heapIndex := by
    have hindex : u.heapIndex.toNat = t.heapIndex.toNat + j.room := hj.heapIndex
    rw [hst'.toNat_heapIndex hlast, hindex, hst.toNat_heapIndex hfirst, Join.room]
    omega
  hadError := herr'.trans (hj.hadError.trans herr)

/-- **An evaluation of a join comes to the joined text** — induction on the join. -/
theorem Evaluates.joins {n : ℕ} {ms : List Move} {r : EStateM.Result Stop Machine MshVar}
    (hev : Evaluates h n s ms r) (hrest : s.rest = j.expr.text ++ zs)
    (hend : isOp ((zs.dropWhile isspace).headD 0) = false) (hroom : s.Room j.room)
    (hn : j.expr.text.length < n) :
    ∃ v t, r = .ok v t ∧ Joins h j s v t ∧ t.rest = zs.dropWhile isspace ∧
      ∀ m ∈ ms, m.FillsBlock h := by
  induction j generalizing n s ms r with
  | last b q =>
    have hliteral : s.rest = b.text ++ (chr '"' :: (q.text ++ chr '"' :: zs)) := by
      simpa [Join.expr, Expr.text, Prim.text] using hrest
    obtain ⟨t, hrun, hst, herr, hzs, hfills⟩ := run_literal (h := h) hliteral hroom
    have hskip : (skipped t).rest = zs.dropWhile isspace := by rw [rest_skipped, hzs]
    have hop : isOp (skipped t).cur = false := by rw [cur_eq hskip, hend]
    obtain ⟨rfl, rfl⟩ := hev.of_last (Nat.zero_lt_of_lt hn) hrun hop
    exact ⟨_, _, rfl, joins_last hst hroom herr, hskip, by simpa using hfills⟩
  | plus b q b' j ih =>
    have hliteral : s.rest = b.text ++ (chr '"' :: (q.text ++ chr '"' ::
        (b'.text ++ chr '+' :: (j.expr.text ++ zs)))) := by
      simpa [Join.expr, Expr.text, Prim.text, Op.plus] using hrest
    have hroom' : s.heapIndex.toNat + (q.text.length + 1 + j.room +
        ((q.text ++ j.joined).length + 1)) ≤ heapSize.toNat := hroom
    have hfirst : s.Room (q.text.length + 1) := by
      unfold Machine.Room
      omega
    obtain ⟨t, hrun, hst, herr, hzs, hfills⟩ := run_literal (h := h) hliteral hfirst
    have hindex := hst.toNat_heapIndex hfirst
    have hskip : (skipped t).rest = chr '+' :: (j.expr.text ++ zs) :=
      rest_skipped_of_blanks hzs (isspace_of_isOp Op.plus.isOp)
    have hcur : (skipped t).cur = chr '+' := cur_eq hskip
    have hop : isOp (skipped t).cur = true := by rw [hcur]; decide
    have hplus : (⟨(skipped t).cur, hop⟩ : Op) = .plus := by
      rw [Op.plus, Op.mk.injEq]
      exact hcur
    obtain ⟨k, ms', r', rfl, hev', hrest'⟩ := hev.of_op (Nat.zero_lt_of_lt hn) hrun hop
    have hinner : (pastOp t).Room j.room := by
      change t.heapIndex.toNat + _ ≤ _
      omega
    have hlen : j.expr.text.length < k := by
      simp only [Join.expr, Expr.text, List.length_append, List.length_cons] at hn
      omega
    obtain ⟨v, u, rfl, hj, hend', hms⟩ := ih hev' (rest_advance hskip) hinner hlen
    obtain ⟨rfl, rfl⟩ := hrest' v u rfl
    have hindex' : u.heapIndex.toNat = t.heapIndex.toNat + j.room := hj.heapIndex
    have hwrites : WritesBlocks h t u := ⟨hj.writes.le, hj.writes.mem⟩
    have hleft := (hwrites.fills (by omega)).str (hst.str hfirst q.zero_notMem)
    have hlast : u.Room ((q.text ++ j.joined).length + 1) := by
      unfold Machine.Room
      omega
    have hstr : ({ MshVar.zero with type := .str, val := s.next h } : MshVar).type = .str := rfl
    obtain ⟨x, hjoin, hst', herr', hrest'', hfills'⟩ :=
      run_join hstr hj.type hleft hj.str hlast
    rw [hplus]
    refine ⟨_, x, hjoin, joins_plus hst hfirst herr hj hlast hst' herr', hrest''.trans hend', ?_⟩
    refine List.forall_mem_cons.mpr ⟨hfills, List.forall_mem_append.mpr ⟨hms, fun m hm => ?_⟩⟩
    obtain rfl := List.mem_singleton.mp hm
    exact hfills'

/-- The cursor, from what is left of the program. -/
theorem pc_eq_of_rest {xs zs : List Byte} (hcode : t.code = s.code) (hs : s.rest = xs ++ zs)
    (ht : t.rest = zs) (hzs : zs ≠ []) : t.pc = s.pc + xs.length := by
  have hs' := congrArg List.length hs
  have ht' := congrArg List.length ht
  rw [Machine.rest, List.length_drop, List.length_append] at hs'
  rw [Machine.rest, List.length_drop, hcode] at ht'
  have := List.length_pos_iff.mpr hzs
  omega

/-- **A join evaluates to the joined text**: without an error, with the cursor behind it, and with
memory as it was but for the blocks handed out, each of them filled by the move that asked for
it. -/
theorem evalExpr_join (h : Host) {s : Machine} (j : Join) {b : Blanks} {c : Byte} {cs : List Byte}
    (hrest : s.rest = j.expr.text ++ (b.text ++ c :: cs)) (hblank : isspace c = false)
    (hop : isOp c = false) (hroom : s.Room j.room) :
    ∃ v t, evalExpr h s = .ok v t ∧ v.type = .str ∧ t.mem.cstr? v.val = some j.joined ∧
      t.hadError = s.hadError ∧ t.pc = s.pc + (j.expr.text ++ b.text).length ∧
      t.heapIndex.toNat = s.heapIndex.toNat + j.room ∧
      (∀ x : Word, ¬ (h.heap.base.toNat + s.heapIndex.toNat ≤ x.toNat ∧
        x.toNat < h.heap.base.toNat + t.heapIndex.toNat) → t.mem x = s.mem x) ∧
      ∀ m ∈ movesOf h s, m.FillsBlock h := by
  have hdrop : (b.text ++ c :: cs).dropWhile isspace = c :: cs := by
    rw [List.dropWhile_append_of_pos b.blank, List.dropWhile_cons_of_neg (by simp [hblank])]
  have hlen : j.expr.text.length < s.code.length + 1 := by
    have hlength := congrArg List.length hrest
    rw [Machine.rest, List.length_drop, List.length_append] at hlength
    omega
  have hend : isOp (((b.text ++ c :: cs).dropWhile isspace).headD 0) = false := by
    rw [hdrop]
    exact hop
  obtain ⟨v, t, hr, hj, ht, hms⟩ := (evaluates_evalExpr h s).joins hrest hend hroom hlen
  rw [hdrop] at ht
  have hcode := ((frame_evalExpr h).ok hr).code
  rw [← List.append_assoc] at hrest
  exact ⟨v, t, hr, hj.type, hj.str.text, hj.hadError,
    pc_eq_of_rest hcode hrest ht (List.cons_ne_nil _ _), hj.heapIndex, hj.writes.mem, hms⟩

/-- `"ab" + "c"`. -/
def twoLiterals : Join :=
  .plus .none ⟨str "ab", List.all_eq_true.mp rfl⟩ .one
    (.last .one ⟨str "c", List.all_eq_true.mp rfl⟩)

/-- It takes 3 bytes, 2 bytes and 4 bytes. -/
theorem evalExpr_join_twoLiterals : ∃ v t,
    evalExpr Host.bare (reading twoLiterals.expr.text) = .ok v t ∧ v.type = .str ∧
      t.mem.cstr? v.val = some (str "abc") ∧ t.hadError = false ∧ t.pc = 0 + 10 ∧
      t.heapIndex.toNat = 0 + 9 ∧
      (∀ x : Word, ¬ (0x400000 + 0 ≤ x.toNat ∧ x.toNat < 0x400000 + t.heapIndex.toNat) →
        t.mem x = 0) ∧
      ∀ m ∈ movesOf Host.bare (reading twoLiterals.expr.text), m.FillsBlock Host.bare := by
  have hrest : (reading twoLiterals.expr.text).rest
      = twoLiterals.expr.text ++ (Blanks.none.text ++ 0 :: []) := rfl
  exact evalExpr_join Host.bare twoLiterals hrest (by decide) (by decide) (by decide)

end HuskyKernel
