import HuskyKernel.BuiltIn.Outcomes
import HuskyKernel.BuiltIn.Pointers

/-!
# BuiltIn/OutOfMemory — when the heap has no room

Of the three places where an evaluation asks `malloc` for a block, one looks at the answer: `strdup`
passes NULL on.  A literal and a concatenation write to NULL, an operation that is given it reads
from there, and none of them raises an error.  So a call in which a `malloc` fails keeps clear of
NULL and returns `false` only if it fails for another reason before it uses the string
(`nullSafe_iff`).
-/

namespace HuskyKernel

open Wp Scan Msh

/-! ## Moves without a block -/

namespace Move

/-- The heap has no room for what the move asks for. -/
def Denied (h : Host) (m : Move) : Prop := m.request.isSome ∧ m.block h = 0

/-- What the move asks for is a copy of a variable's string. -/
def IsCopy : Move → Prop
  | operand s => (skipped s).cur ≠ chr '"'
  | operation .. => False

/-- NULL is written or read through.  Of an operand only the pointer it writes to counts: `strdup`
looks at the other one. -/
def UsesNull (h : Host) : Move → Prop
  | operand s => .dest 0 ∈ (operand s).events h
  | operation o left right s =>
    .dest 0 ∈ (operation o left right s).events h ∨
      .strArg .str 0 ∈ (operation o left right s).events h

/-- The move converts or concatenates strings, and one of them is NULL. -/
def TakesNull : Move → Prop
  | operand _ => False
  | operation o left right _ =>
    (commonType left.type right.type = .int ∨ commonType left.type right.type = .float ∨
      (o.byte = chr '+' ∧ commonType left.type right.type = .str)) ∧
    (argOf left = .strArg .str 0 ∨ argOf right = .strArg .str 0)

instance {h : Host} : DecidablePred (Denied h) := fun _ => inferInstanceAs (Decidable (_ ∧ _))

instance {h : Host} : DecidablePred (UsesNull h)
  | operand _ => inferInstanceAs (Decidable (_ ∈ _))
  | operation .. => inferInstanceAs (Decidable (_ ∈ _ ∨ _ ∈ _))

end Move

section Moves

variable {h : Host} {s : Machine} {m : Move} {left right : MshVar} {o : Op}

/-- An operand writes to NULL if it is a literal without a block. -/
theorem usesNull_operand : (Move.operand s).UsesNull h ↔
    (Move.operand s).Denied h ∧ ¬ (Move.operand s).IsCopy := by
  rw [Move.UsesNull, events_eq, Move.script, Move.Denied, Move.IsCopy, not_not]
  by_cases hq : (skipped s).cur = chr '"'
  · rw [if_pos hq]
    split_ifs with hask
    · simp [hq, hask, eq_comm]
    · simp [hask]
  · rw [if_neg hq]
    refine iff_of_false ?_ fun hlit => hq hlit.2
    cases s.entry? with
    | none => exact List.not_mem_nil
    | some v => simp [Move.argOf]

/-- What a concatenation hands on, once both strings have been measured. -/
theorem mem_concatenated_iff {p : Word} {e : Event} (hl : (s.mem.cstr? left.val).isSome)
    (hr : (s.mem.cstr? right.val).isSome) : e ∈ Move.concatenated p left right s ↔
      e = .dest p ∨ e = Move.argOf left ∨ e = Move.argOf right := by
  obtain ⟨l, hl⟩ := Option.isSome_iff_exists.mp hl
  obtain ⟨r, hr⟩ := Option.isSome_iff_exists.mp hr
  simp only [Move.concatenated, hl, hr]
  split_ifs
  all_goals
    simp only [List.mem_cons, List.not_mem_nil, or_false]
    tauto

/-- What two conversions hand on, if the first returns. -/
theorem mem_converted_iff {m : Mem} (hl : Readable m left)
    (hc : commonType left.type right.type = .int ∨ commonType left.type right.type = .float) :
    .strArg .str 0 ∈ converted m left right ↔
      Move.argOf left = .strArg .str 0 ∨ Move.argOf right = .strArg .str 0 := by
  have hargs (v : MshVar) : .strArg .str 0 ∈ v.strArgs ↔ Move.argOf v = .strArg .str 0 := by
    rw [MshVar.strArgs, Move.argOf]
    split_ifs with hstr
    · exact List.mem_singleton.trans eq_comm
    · exact iff_of_false List.not_mem_nil fun he => hstr (Event.strArg.inj he).1
  rw [converted, if_pos hc, if_pos hl, List.mem_append, hargs, hargs, or_comm]

/-- An operation that returns uses NULL if it has no block, or is given one. -/
theorem usesNull_operation (hm : (Move.operation o left right s).Ends h) :
    (Move.operation o left right s).UsesNull h ↔
      (Move.operation o left right s).Denied h ∨ (Move.operation o left right s).TakesNull := by
  rw [Move.UsesNull, events_eq, Move.script, Move.Denied, Move.TakesNull]
  by_cases hcat : o.byte = chr '+' ∧ commonType left.type right.type = .str
  · obtain ⟨l, hl, r, hr, -⟩ := hm.2.1 hcat.2 hcat.1
    have hconv : converted s.mem left right = [] := by
      rw [converted, hcat.2]
      rfl
    have hrequest : (Move.operation o left right s).request.isSome := by
      rw [Move.request, if_pos hcat, hl, hr]
      rfl
    have hmem {p : Word} {e : Event} := mem_concatenated_iff (s := s) (p := p) (e := e)
      (Option.isSome_of_mem hl) (Option.isSome_of_mem hr)
    have hwrite {p : Word} : .dest 0 ∈ Move.concatenated p left right s ↔ p = 0 := by
      simp only [hmem, Event.dest.injEq, Move.argOf, reduceCtorEq, or_false]
      exact eq_comm
    have hread {p : Word} : .strArg .str 0 ∈ Move.concatenated p left right s ↔
        Move.argOf left = .strArg .str 0 ∨ Move.argOf right = .strArg .str 0 := by
      simp only [hmem, reduceCtorEq, false_or]
      exact or_congr eq_comm eq_comm
    rw [if_pos hcat, hconv, List.append_nil, hwrite, hread, and_iff_right hrequest,
      and_iff_right (.inr (.inr hcat))]
  · have hrequest : (Move.operation o left right s).request = none := by
      rw [Move.request, if_neg hcat]
    rw [if_neg hcat, List.nil_append, hrequest]
    have hdest : .dest 0 ∉ converted s.mem left right := fun he => by
      obtain ⟨v, -, -, hv⟩ := mem_converted he
      cases hv
    simp only [hdest, false_or, Option.isSome_none, reduceCtorEq, false_and, hcat, or_false]
    by_cases hc : commonType left.type right.type = .int ∨
        commonType left.type right.type = .float
    · rw [mem_converted_iff (hm.1 hc).1 hc, and_iff_right hc]
    · rw [converted, if_neg hc]
      exact iff_of_false List.not_mem_nil fun hn => hc hn.1

/-- **A move that returns uses NULL** if it has no block to write to, or takes NULL for a string. -/
theorem usesNull_iff (hm : m.Ends h) :
    m.UsesNull h ↔ (m.Denied h ∧ ¬ m.IsCopy) ∨ m.TakesNull := by
  cases m with
  | operand s => exact usesNull_operand.trans (or_iff_left id).symm
  | operation o left right s =>
    rw [usesNull_operation hm]
    exact or_congr_left (and_iff_left id).symm

end Moves

/-! ## Calls -/

section Calls

variable (h : Host) (code : List Byte) (s : Machine)

/-- **Out of memory is an error**: if a move of the call gets no block, then NULL is not used from
there on, and the call returns `false`. -/
def NullSafe : Prop :=
  ∀ ms m ms', callMoves h code s = ms ++ m :: ms' → m.Denied h →
    (∀ m' ∈ m :: ms', ¬ m'.UsesNull h) ∧
    ∀ n, code.length < n → ∃ u, mshExecute h n code s = .ok false u

/-- **Out of memory is an error exactly if** what gets no block is a copy, nothing behind it takes
NULL for a string, and the call returns and fails all the same. -/
theorem nullSafe_iff : NullSafe h code s ↔
    ∀ ms m ms', callMoves h code s = ms ++ m :: ms' → m.Denied h →
      m.IsCopy ∧ (∀ m' ∈ ms', ¬ m'.TakesNull) ∧
      (∀ m' ∈ callMoves h code s, m'.Ends h) ∧ ∃ s' ∈ headsOf h code s, Fails h s' := by
  constructor
  · intro hsafe ms m ms' hms hdenied
    obtain ⟨huse, hret⟩ := hsafe ms m ms' hms hdenied
    obtain ⟨hends, hfail⟩ :=
      (mshExecute_false_iff (Nat.lt_succ_self _)).mp (hret _ (Nat.lt_succ_self _))
    have hno {m' : Move} (hm' : m' ∈ m :: ms') :
        ¬ ((m'.Denied h ∧ ¬ m'.IsCopy) ∨ m'.TakesNull) := by
      have hmem : m' ∈ callMoves h code s := hms ▸ List.mem_append_right _ hm'
      rw [← usesNull_iff (hends m' hmem)]
      exact huse m' hm'
    refine ⟨?_, fun m' hm' htakes => hno (List.mem_cons_of_mem _ hm') (.inr htakes), hends, hfail⟩
    by_contra hcopy
    exact hno List.mem_cons_self (.inl ⟨hdenied, hcopy⟩)
  · intro hcond ms m ms' hms hdenied
    obtain ⟨hcopy, htakes, hends, hfail⟩ := hcond ms m ms' hms hdenied
    refine ⟨fun m' hm' huse => ?_, fun n hn => (mshExecute_false_iff hn).mpr ⟨hends, hfail⟩⟩
    have hmem : m' ∈ callMoves h code s := hms ▸ List.mem_append_right _ hm'
    rcases (usesNull_iff (hends m' hmem)).mp huse with ⟨hdenied', hno⟩ | htakes'
    · -- the copies behind are no exception: the condition is about each of them
      obtain ⟨as, bs, hsplit⟩ := List.append_of_mem hmem
      exact hno (hcond as m' bs hsplit hdenied').1
    · rcases List.mem_cons.mp hm' with rfl | hm'
      · cases m' with
        | operand s => exact htakes'
        | operation o left right s => exact hcopy
      · exact htakes m' hm' htakes'

end Calls

/-- The heap is used up, and `x` is the empty string. -/
def spent : Machine :=
  { Machine.boot with
    vars := fun _ => ⟨str "x" ++ List.replicate 31 0, .str, 1⟩
    varCount := 1
    heapIndex := heapSize }

/-- The literal is written to NULL; the copy of `x` that there is no room for is stored, and the
call returns `true`. -/
theorem not_nullSafe_spent :
    ¬ NullSafe Host.bare (str "x = \"a\"") spent ∧ ¬ NullSafe Host.bare (str "y = x") spent := by
  constructor
  · intro hsafe
    have hbad : ∃ m ∈ callMoves Host.bare (str "x = \"a\"") spent,
        m.Denied Host.bare ∧ m.UsesNull Host.bare := by decide +kernel
    obtain ⟨m, hm, hdenied, huse⟩ := hbad
    obtain ⟨ms, ms', hms⟩ := List.append_of_mem hm
    exact (hsafe ms m ms' hms hdenied).1 m List.mem_cons_self huse
  · intro hsafe
    have hbad : ∃ m ∈ callMoves Host.bare (str "y = x") spent, m.Denied Host.bare := by
      decide +kernel
    have htrue : check (mshExecute Host.bare 6 (str "y = x")) (fun b _ => b) spent = true := by
      decide +kernel
    obtain ⟨m, hm, hdenied⟩ := hbad
    obtain ⟨ms, ms', hms⟩ := List.append_of_mem hm
    obtain ⟨u, hr⟩ := (hsafe ms m ms' hms hdenied).2 6 (by decide)
    rw [check, hr] at htrue
    cases htrue

end HuskyKernel
