import HuskyKernel.BuiltIn.Blocks
import HuskyKernel.BuiltIn.Stops

/-!
# BuiltIn/Pointers — the pointers a move hands around

A move asks `malloc` for at most one block (`Move.request`, `Move.block`), and hands pointers to the
string functions: `Move.script` is what the log has of that, and `log_stop` that it has nothing
else.  Both are read off the machine before the move.
-/

namespace HuskyKernel

open Wp Scan Msh

namespace Move

/-! ## Requests and pointers -/

/-- The number of bytes a move asks `malloc` for, if it does. -/
def request : Move → Option ℕ
  | operand s =>
    if (skipped s).cur = chr '"' then
      let start := (skipped s).pc + 1
      let stop := scan inString s.code start
      if s.code.getD stop 0 = chr '"' then some (stop - start + 1) else none
    else s.entry?.bind fun v =>
      if v.type = .str ∧ v.val ≠ 0 then (s.mem.cstr? v.val).map fun bs => bs.length + 1 else none
  | operation o left right s =>
    if o.byte = chr '+' ∧ commonType left.type right.type = .str then
      (s.mem.cstr? left.val).bind fun l =>
        (s.mem.cstr? right.val).map fun r => l.length + r.length + 1
    else none

/-- The block it gets: NULL if the heap has no room for it. -/
def block (h : Host) (m : Move) : Word :=
  (HuskyKernel.malloc h.heap (BitVec.ofNat 32 (m.request.getD 0)) m.start.heapIndex).1

/-- What the log has gained. -/
def events (h : Host) (m : Move) : List Event :=
  (m.stop h).log.take ((m.stop h).log.length - m.start.log.length)

/-- A value handed to a string function. -/
def argOf (v : MshVar) : Event := .strArg v.type v.val

/-- The pointers of a concatenation, the latest first. -/
def concatenated (p : Word) (left right : MshVar) (s : Machine) : List Event :=
  match s.mem.cstr? left.val, s.mem.cstr? right.val with
  | none, _ => [argOf left]
  | some _, none => [argOf right, argOf left]
  | some _, some _ =>
    if (s.mem.strcpy p left.val).isSome then
      [argOf right, .dest p, argOf left, .dest p, argOf right, argOf left]
    else [argOf left, .dest p, argOf right, argOf left]

/-- The pointers a move hands to string functions, the latest first. -/
def script (h : Host) : Move → List Event
  | operand s =>
    if (skipped s).cur = chr '"' then
      if (operand s).request.isSome then [.dest ((operand s).block h)] else []
    else match s.entry? with
      | some v => if v.type = .str then [argOf v] else []
      | none => []
  | operation o left right s =>
    (if o.byte = chr '+' ∧ commonType left.type right.type = .str then
      concatenated ((operation o left right s).block h) left right s
    else []) ++ converted s.mem left right

end Move

variable {h : Host} {s t : Machine} {v left right : MshVar} {o : Op} {m : Move}

/-- A literal asks for its length and one byte more. -/
theorem request_literal {text zs : List Byte}
    (hrest : (skipped s).rest = chr '"' :: (text ++ chr '"' :: zs))
    (hin : ∀ c ∈ text, inString c = true) :
    (Move.operand s).request = some (text.length + 1) := by
  have hq : (skipped s).cur = chr '"' := cur_eq hrest
  have hopen := rest_advance hrest
  have hstop : scan inString s.code ((skipped s).pc + 1) = (skipped s).pc + 1 + text.length :=
    scan_append (d := 0) hopen hin rfl
  have hclose : s.code.drop (scan inString s.code ((skipped s).pc + 1)) = chr '"' :: zs :=
    rest_scan hopen hin rfl
  have hcur : s.code.getD (scan inString s.code ((skipped s).pc + 1)) 0 = chr '"' := by
    rw [← headD_drop, hclose, List.headD_cons]
  rw [Move.request, if_pos hq]
  simp only [hcur, if_true]
  rw [hstop, Nat.add_sub_cancel_left]

/-- A request the heap has room for gets the next block. -/
theorem block_eq {n : ℕ} (hn : m.request = some n) (hroom : m.start.Room n) :
    m.block h = m.start.next h := by
  rw [Move.block, hn, Option.getD_some, hroom.malloc]

/-! ## The log -/

/-- However `m` ends, the log has gained `es`. -/
def Logs {α : Type} (es : List Event) (m : Msh α) (s : Machine) : Prop :=
  wp m (fun _ t => t.log = es ++ s.log) (fun _ t => t.log = es ++ s.log) s

theorem logs_strdup : Logs [Move.argOf v] (strdup h v) s := by
  rw [Logs, strdup, wp_bind, wp_emit, wp_ite]
  refine ⟨fun _ => rfl, fun _ => wp_bind.mpr (wp_cstrAt.mpr ⟨fun bs _ => ?_, fun _ => rfl⟩)⟩
  rw [wp_bind, wp_malloc, wp_ite]
  exact ⟨fun _ => rfl, fun _ => rfl⟩

theorem logs_stringLiteral (hq : (skipped s).cur = chr '"') :
    Logs ((Move.operand s).script h) (stringLiteral h) (skipped s) := by
  rw [Logs, Move.script, if_pos hq, Move.block, Move.request, if_pos hq, stringLiteral, wp_bind,
    wp_advance, wp_bind, wp_get, wp_bind, wp_scanCode, wp_bind, wp_peek, wp_ite]
  refine ⟨fun hopen => ?_, fun hclosed => ?_⟩
  · replace hopen : s.code.getD (scan inString s.code ((skipped s).pc + 1)) 0 ≠ chr '"' := hopen
    rw [if_neg hopen]
    rfl
  · replace hclosed : s.code.getD (scan inString s.code ((skipped s).pc + 1)) 0 = chr '"' :=
      not_not.mp hclosed
    rw [if_pos hclosed, wp_bind, copyLiteral, wp_bind, wp_get, wp_bind, wp_malloc, ofNat_succ]
    rfl

theorem logs_variableRef (hq : (skipped s).cur ≠ chr '"') (ha : isalpha (skipped s).cur = true) :
    Logs ((Move.operand s).script h) (variableRef h) (skipped s) := by
  have hentry {i : Option ℕ} (hl : (skipped s).lookup (parsed (skipped s)).identBuf = i) :
      s.lookup (parsed (skipped s)).identBuf = i := hl
  rw [Logs, Move.script, if_neg hq, Machine.entry?, if_pos ha]
  refine wp_variableRef h (fun hl => ?_) (fun i hl hstr => ?_) fun i hl hne => ?_
  all_goals rw [hentry hl]
  · exact rfl
  · simp only [Option.map_some]
    rw [if_pos (show (s.vars i).type = .str from hstr)]
    exact logs_strdup
  · simp only [Option.map_some]
    rw [if_neg (show (s.vars i).type ≠ .str from hne)]
    rfl

/-- **An operand hands on one pointer at most.** -/
theorem logs_operand : Logs ((Move.operand s).script h) ((Move.operand s).act h) s := by
  have hnone (hq : (skipped s).cur ≠ chr '"') (ha : isalpha (skipped s).cur = false) :
      (Move.operand s).script h = [] := by
    rw [Move.script, if_neg hq, Machine.entry?, if_neg (Bool.eq_false_iff.mp ha)]
  refine wp_operand logs_stringLiteral logs_variableRef (fun hq ha => ?_) fun hq ha => ?_
  all_goals
    rw [hnone hq ha]
    rfl

/-- The pointers of a concatenation. -/
theorem logs_concat {p : Word} (hp : ∀ l r, s.mem.cstr? left.val = some l →
    s.mem.cstr? right.val = some r → (HuskyKernel.malloc h.heap
      (BitVec.ofNat 32 (l.length + r.length + 1)) s.heapIndex).1 = p) :
    Logs (Move.concatenated p left right s) (concat h left right) s := by
  rw [Logs, concat, wp_bind]
  refine wp_strlen_ends (fun l hl => ?_) fun hl => ?_
  · refine wp_bind.mpr (wp_strlen_ends (fun r hr => ?_) fun hr => ?_)
    · replace hr : s.mem.cstr? right.val = some r := hr
      have hmalloc := hp l r hl hr
      rw [wp_bind, wp_malloc, ← BitVec.ofNat_add, ofNat_succ]
      simp only [hmalloc, Move.concatenated, hl, hr]
      rw [wp_bind, strcpy, wp_bind, wp_emit, wp_bind, wp_emit]
      refine wp_copyLoop_ends (fun m hm => ?_) fun hnone => ?_
      · rw [show s.mem.strcpy p left.val = some m from hm, wp_bind, strcat, wp_bind, wp_emit,
          wp_bind, wp_emit]
        exact wp_copyLoop_ends (fun _ _ => rfl) fun _ => rfl
      · rw [show s.mem.strcpy p left.val = none from hnone]
        rfl
    · simp only [Move.concatenated, hl, show s.mem.cstr? right.val = none from hr]
      rfl
  · simp only [Move.concatenated, hl]
    rfl

/-- **An operation other than a concatenation, case by case**: it has a value, which for strings is
the one it started from, or traps, or is an error. -/
theorem wp_applyOp_other {op : Byte} {result x y : MshVar} {c : MshType}
    {Q : MshVar → Machine → Prop} {E : Stop → Machine → Prop}
    (hcat : ¬ (op = chr '+' ∧ c = .str))
    (hval : ∀ w, (c = .str → w = result.val) → Q { result with val := w } s)
    (htrap : E .divTrap s) (herror : Q result { s with hadError := true }) :
    wp (applyOp h op result c x y) Q E s := by
  have hsame : Q result s := hval result.val fun _ => rfl
  have hnumber (hc : c ≠ .str) (w : Word) : Q { result with val := w } s :=
    hval w fun hstr => absurd hstr hc
  unfold applyOp
  simp only [wp_ite]
  refine ⟨fun hplus => ?_, fun _ => ⟨fun _ => ?_, fun _ => ⟨fun _ => ?_, fun _ => ?_⟩⟩⟩
  · cases c
    case str => exact absurd ⟨hplus, rfl⟩ hcat
    case int | float => exact hnumber (by decide) _
    all_goals exact hsame
  · cases c
    case int | float => exact hnumber (by decide) _
    all_goals exact hsame
  · cases c
    case int | float => exact hnumber (by decide) _
    all_goals exact hsame
  · refine ⟨fun hint => wp_bind.mpr ((wp_idiv _ _).mpr ⟨fun _ => htrap, fun _ => ?_⟩),
      fun _ => ⟨fun hfloat => ?_, fun _ => herror⟩⟩
    · exact hnumber (by rw [hint.1]; decide) _
    · exact hnumber (by rw [hfloat.1]; decide) _

/-- **An operation hands its operands on**, and the new block. -/
theorem logs_operation : Logs ((Move.operation o left right s).script h)
    (operate h o left right) s := by
  rw [Logs, Move.script, operate, wp_bind]
  refine wp_mono wp_unify (fun p t hu => ?_) fun e t hstop => ?_
  · obtain ⟨hu, rfl⟩ := hu
    obtain ⟨c, x, y⟩ := p
    obtain rfl : c = commonType left.type right.type := hu.common
    split_ifs with hcat
    · obtain ⟨hx, hy⟩ := hu.other (by simp only [hcat.2]; decide) (by simp only [hcat.2]; decide)
      obtain rfl : x = left := hx
      obtain rfl : y = right := hy
      have hp : ∀ l r, s.mem.cstr? x.val = some l → s.mem.cstr? y.val = some r →
          (HuskyKernel.malloc h.heap (BitVec.ofNat 32 (l.length + r.length + 1)) s.heapIndex).1
            = (Move.operation o x y s).block h := by
        intro l r hl hr
        rw [Move.block, Move.request, if_pos hcat, hl, hr]
        rfl
      unfold applyOp
      simp only [hcat.1, hcat.2, if_true]
      refine wp_bind.mpr (wp_mono (logs_concat hp) (fun _ t ht => ?_) fun _ t ht => ?_)
      · exact ht.trans (List.append_assoc ..).symm
      · exact ht.trans (List.append_assoc ..).symm
    · exact wp_applyOp_other hcat (fun _ _ => rfl) rfl rfl
  · obtain ⟨⟨-, hnumber, -⟩, hlog⟩ := hstop
    have hno : ¬ (o.byte = chr '+' ∧ commonType left.type right.type = .str) := by
      rintro ⟨-, hstr⟩
      rw [hstr] at hnumber
      exact absurd hnumber (by decide)
    rw [if_neg hno]
    exact hlog

/-- Only strings are converted. -/
theorem mem_converted {m : Mem} {e : Event} (he : e ∈ converted m left right) :
    ∃ v, (v = left ∨ v = right) ∧ v.type = .str ∧ e = Move.argOf v := by
  have hargs {v : MshVar} (hv : e ∈ v.strArgs) : v.type = .str ∧ e = Move.argOf v := by
    rw [MshVar.strArgs] at hv
    split_ifs at hv with hstr
    · exact ⟨hstr, List.mem_singleton.mp hv⟩
    · cases hv
  rw [converted] at he
  split_ifs at he with hnum hread
  · rcases List.mem_append.mp he with he | he
    · exact ⟨right, .inr rfl, hargs he⟩
    · exact ⟨left, .inl rfl, hargs he⟩
  · exact ⟨left, .inl rfl, hargs he⟩
  · cases he

/-- A concatenation hands on its operands and the new block. -/
theorem mem_concatenated {p : Word} {e : Event} (he : e ∈ Move.concatenated p left right s) :
    e = .dest p ∨ e = Move.argOf left ∨ e = Move.argOf right := by
  unfold Move.concatenated at he
  split at he
  · exact .inr (.inl (List.mem_singleton.mp he))
  · simp only [List.mem_cons, List.not_mem_nil, or_false] at he
    tauto
  · split_ifs at he
    all_goals
      simp only [List.mem_cons, List.not_mem_nil, or_false] at he
      tauto

/-- **The log of a move.** -/
theorem log_stop (h : Host) (m : Move) : (m.stop h).log = m.script h ++ m.start.log := by
  refine (wp_after (m := m.act h) (Q := fun t => t.log = m.script h ++ m.start.log)).mp ?_
  cases m with
  | operand s => exact logs_operand
  | operation o left right s => exact (wp_map _).mpr logs_operation

theorem events_eq (h : Host) (m : Move) : m.events h = m.script h := by
  rw [Move.events, log_stop, List.length_append, Nat.add_sub_cancel, List.take_left]

end HuskyKernel
