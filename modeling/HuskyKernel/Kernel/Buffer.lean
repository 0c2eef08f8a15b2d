import HuskyKernel.Logic.Lines
import HuskyKernel.System.Bytes

/-!
# Kernel/Buffer — `execute_buffer`

The program in `editor_buffer` is run in place, line by line: a newline is overwritten with a NUL
while the line in front of it runs.  A line that fails leaves the loop before its newline is put
back, and the code behind the loop, meant for a last line without newline, then finds that line once
more.  So the lines are run once each (`executeBuffer_calls_iff`), and the program is left as it was
(`executeBuffer_buffer_iff`), exactly if no line that ends in a newline fails.

`msh_execute` is a parameter: `answer` is what it returns for a line, by the calls made before.
-/

namespace HuskyKernel

/-- `EDITOR_BUFFER_SIZE`. -/
def editorBufferSize : ℕ := 4096

/-- The calls of `msh_execute` made so far, in order: the string passed and the result. -/
abbrev Calls := List (List Byte × Bool)

/-- The locals of `execute_buffer`, the buffer they point into, and what has been done: `screen` is
what has been written to the terminal. -/
structure Executor where
  buffer : List Byte
  current : ℕ
  lineStart : ℕ
  overallSuccess : Bool
  calls : Calls
  screen : List Byte

namespace Executor

variable (answer : Calls → List Byte → Bool)

/-- `*current`. -/
def cur (st : Executor) : Byte := st.buffer.getD st.current 0

/-- The string at `line_start`. -/
def line (st : Executor) : List Byte := cstr (st.buffer.drop st.lineStart)

/-- What `msh_execute(line_start)` is going to return. -/
def lineSuccess (st : Executor) : Bool := answer st.calls st.line

/-- `*current = c`. -/
def poke (c : Byte) (st : Executor) : Executor := { st with buffer := st.buffer.set st.current c }

/-- Show the line at `line_start` and run it. -/
def runLine (st : Executor) : Executor :=
  { st with
    overallSuccess := st.overallSuccess && st.lineSuccess answer
    calls := st.calls ++ [(st.line, st.lineSuccess answer)]
    screen := st.screen ++ str "> " ++ st.line ++ str "\n" }

/-- Put the newline back, and go on behind it. -/
def nextLine (st : Executor) : Executor :=
  { st.poke (chr '\n') with lineStart := st.current + 1, current := st.current + 1 }

/-- `while (*current != '\0')`; `none` if `n` rounds do not end it. -/
def scanLines : ℕ → Executor → Option Executor
  | 0, _ => none
  | n + 1, st =>
    if st.cur = 0 then some st
    else if st.cur = chr '\n' then
      let st := st.poke 0
      if st.lineStart < st.current then
        if st.lineSuccess answer then scanLines n (st.runLine answer).nextLine
        else
          let st := st.runLine answer
          some { st with screen := st.screen ++ str "! Error in this line\n" }
      else scanLines n st.nextLine
    else scanLines n { st with current := st.current + 1 }

/-- Behind the loop: the last line, if no newline ends it. -/
def lastLine (st : Executor) : Executor :=
  if st.lineStart < st.current then st.runLine answer else st

/-- The report. -/
def report (st : Executor) : Executor :=
  { st with screen := st.screen ++ str (if st.overallSuccess then "\n--- Execution Successful ---\n"
      else "\n--- Execution Failed ---\n") }

/-- The state in front of the loop. -/
def start (buffer : List Byte) (pos : ℕ) : Executor where
  buffer := buffer.set (if pos ≥ editorBufferSize then editorBufferSize - 1 else pos) 0
  current := 0
  lineStart := 0
  overallSuccess := true
  calls := []
  screen := str "\n--- Executing Program ---\n"

end Executor

/-- `execute_buffer`, on the contents of `editor_buffer` and `editor_buffer_pos`. -/
def executeBuffer (answer : Calls → List Byte → Bool) (buffer : List Byte) (pos : ℕ) :
    Option Executor := do
  let st ← Executor.scanLines answer (buffer.length + 1) (.start buffer pos)
  return (st.lastLine answer).report

/-! ## The lines to run -/

/-- The non-empty lines in order, up to and including the first that fails; whether none did. -/
def submit (answer : Calls → List Byte → Bool) : Calls → List (List Byte) → Calls × Bool
  | calls, [] => (calls, true)
  | calls, l :: ls =>
    if l = [] then submit answer calls ls
    else if answer calls l then submit answer (calls ++ [(l, true)]) ls
    else (calls ++ [(l, false)], false)

/-- A program held in `editor_buffer`: a text without NUL, and whatever is behind it. -/
structure Program where
  text : List Byte
  behind : List Byte
  noNul : 0 ∉ text
  fits : text.length < editorBufferSize
  size : text.length + behind.length = editorBufferSize

def Program.buffer (p : Program) : List Byte := p.text ++ p.behind

/-! ## The loop, line by line -/

namespace Executor

variable {answer : Calls → List Byte → Bool} {st : Executor} {l zs : List Byte} {n : ℕ}

/-- The report tells what the calls have returned. -/
def Truthful (st : Executor) : Prop := st.overallSuccess = st.calls.all Prod.snd

theorem Truthful.call (h : st.Truthful) (c : List Byte × Bool) :
    (st.overallSuccess && c.2) = (st.calls ++ [c]).all Prod.snd := by
  rw [h, List.all_append, List.all_cons, List.all_nil, Bool.and_true]

theorem Truthful.runLine (h : st.Truthful) : (st.runLine answer).Truthful :=
  h.call (st.line, st.lineSuccess answer)

/-- The cursor in a known text. -/
theorem cur_of_drop {c : Byte} (h : st.buffer.drop st.current = c :: zs) : st.cur = c := by
  rw [cur, ← Scan.headD_drop, h]
  rfl

/-- Inside a line the loop goes on. -/
theorem scanLines_char (h0 : st.cur ≠ 0) (hn : st.cur ≠ chr '\n') :
    scanLines answer (n + 1) st = scanLines answer n { st with current := st.current + 1 } := by
  rw [scanLines, if_neg h0, if_neg hn]

/-- Up to the end of a line. -/
theorem scanLines_line (h0 : 0 ∉ l) (hn : chr '\n' ∉ l)
    (hd : st.buffer.drop st.current = l ++ zs) :
    scanLines answer (n + l.length) st
      = scanLines answer n { st with current := st.current + l.length } := by
  induction l generalizing st with
  | nil => rfl
  | cons c l ih =>
    have hc : st.cur = c := cur_of_drop hd
    have hd' : st.buffer.drop (st.current + 1) = l ++ zs := by
      rw [← List.drop_drop, hd]
      rfl
    rw [List.length_cons, ← Nat.add_assoc, scanLines_char, ih, Nat.add_assoc, Nat.add_comm 1]
    · exact fun h => h0 (List.mem_cons_of_mem _ h)
    · exact fun h => hn (List.mem_cons_of_mem _ h)
    · exact hd'
    · exact fun h => h0 (h ▸ hc ▸ List.mem_cons_self)
    · exact fun h => hn (h ▸ hc ▸ List.mem_cons_self)

/-- The line `l` has been run at its newline, which is a NUL by now. -/
def ran (answer : Calls → List Byte → Bool) (l : List Byte) (st : Executor) : Executor :=
  { st with
    buffer := st.buffer.set st.current 0
    overallSuccess := st.overallSuccess && answer st.calls l
    calls := st.calls ++ [(l, answer st.calls l)]
    screen := st.screen ++ str "> " ++ l ++ str "\n" }

theorem Truthful.ran (h : st.Truthful) : (st.ran answer l).Truthful :=
  h.call (l, answer st.calls l)

/-- A line, its newline made a NUL. -/
theorem line_poke (h0 : 0 ∉ l) (hd : st.buffer.drop st.lineStart = l ++ chr '\n' :: zs)
    (hc : st.current = st.lineStart + l.length) : (st.poke 0).line = l := by
  change cstr ((st.buffer.set st.current 0).drop st.lineStart) = l
  have hset : (st.buffer.set st.current 0).drop st.lineStart = l ++ 0 :: zs := by
    rw [List.drop_set, if_neg (by omega), hd, hc, Nat.add_sub_cancel_left,
      List.set_append_right _ _ le_rfl, Nat.sub_self]
    rfl
  rw [hset, cstr_append_zero h0]

theorem runLine_poke (hl : (st.poke 0).line = l) :
    (st.poke 0).runLine answer = st.ran answer l := by
  rw [runLine, lineSuccess, hl]
  rfl

/-- Putting the newline back. -/
theorem restore (hc : st.cur = chr '\n') :
    (st.buffer.set st.current 0).set st.current (chr '\n') = st.buffer := by
  have hlt : st.current < st.buffer.length := by
    by_contra hge
    rw [cur, List.getD_eq_default _ _ (by omega)] at hc
    exact absurd hc (by decide)
  rw [List.set_set, ← hc, cur, List.getD_eq_getElem _ _ hlt, List.set_getElem_self]

/-- An empty line is passed over. -/
theorem scanLines_empty (hs : st.lineStart = st.current) (hc : st.cur = chr '\n') :
    scanLines answer (n + 1) st
      = scanLines answer n { st with lineStart := st.current + 1, current := st.current + 1 } := by
  rw [scanLines, if_neg (by rw [hc]; decide), if_pos hc]
  have hlt : ¬ (st.poke 0).lineStart < (st.poke 0).current := hs.not_lt
  simp only [if_neg hlt]
  rw [nextLine]
  simp only [poke, restore hc]

/-- **A line is run at its newline.**  If it succeeds the newline is put back. -/
theorem scanLines_newline (hs : st.lineStart < st.current) (hc : st.cur = chr '\n')
    (hl : (st.poke 0).line = l) : scanLines answer (n + 1) st
      = if answer st.calls l then
          scanLines answer n { st.ran answer l with
            buffer := st.buffer
            lineStart := st.current + 1
            current := st.current + 1 }
        else some { st.ran answer l with
          screen := (st.ran answer l).screen ++ str "! Error in this line\n" } := by
  have hlt : (st.poke 0).lineStart < (st.poke 0).current := hs
  have hans : (st.poke 0).lineSuccess answer = answer st.calls l := by
    rw [lineSuccess, hl]
    rfl
  rw [scanLines, if_neg (by rw [hc]; decide), if_pos hc]
  simp only [if_pos hlt, hans, runLine_poke hl]
  rw [nextLine]
  simp only [poke, ran, restore hc]

/-- Behind a line the cursor is at its newline, with the rest of the text behind that. -/
theorem at_newline (hd : st.buffer.drop st.current = l ++ chr '\n' :: zs) :
    Executor.cur { st with current := st.current + l.length } = chr '\n' ∧
      st.buffer.drop (st.current + l.length + 1) = zs := by
  have hdl : st.buffer.drop (st.current + l.length) = chr '\n' :: zs := by
    rw [← List.drop_drop, hd, List.drop_left]
  refine ⟨cur_of_drop hdl, ?_⟩
  rw [← List.drop_drop, hdl]
  rfl

theorem lineStart_lt (hs : st.lineStart = st.current) (hl : l ≠ []) :
    st.lineStart < st.current + l.length := by
  rw [hs]
  exact Nat.lt_add_of_pos_right (List.length_pos_iff.mpr hl)

/-- From the start of a line, the line is run. -/
theorem scanLines_run (hs : st.lineStart = st.current) (h0 : 0 ∉ l) (hn : chr '\n' ∉ l)
    (hl : l ≠ []) (hd : st.buffer.drop st.current = l ++ chr '\n' :: zs) :
    scanLines answer (n + 1 + l.length) st
      = if answer st.calls l then
          scanLines answer n { ran answer l { st with current := st.current + l.length } with
            buffer := st.buffer
            lineStart := st.current + l.length + 1
            current := st.current + l.length + 1 }
        else some { ran answer l { st with current := st.current + l.length } with
          screen := (ran answer l { st with current := st.current + l.length }).screen ++
            str "! Error in this line\n" } := by
  have hline : (Executor.poke 0 { st with current := st.current + l.length }).line = l :=
    line_poke h0 (by exact hs ▸ hd) (by simp [hs])
  rw [scanLines_line h0 hn hd, scanLines_newline (lineStart_lt hs hl) (at_newline hd).1 hline]

/-- The loop has run through the text, and stands behind its unfinished last line. -/
structure Through (buffer rest zs : List Byte) (st : Executor) : Prop where
  buffer : st.buffer = buffer
  drop : st.buffer.drop st.lineStart = rest ++ 0 :: zs
  current : st.current = st.lineStart + rest.length

/-- The loop was left at a newline, the line in front of it having failed. -/
structure Broken (buffer : List Byte) (st : Executor) : Prop where
  lt : st.lineStart < st.current
  newline : buffer.getD st.current 0 = chr '\n'
  buffer : st.buffer = buffer.set st.current 0

/-- **The loop makes the calls `submit` makes of the lines that end in a newline**, and stands
behind them, or at the newline of the one that failed — induction on the lines. -/
theorem scanLines_text (t : List Byte) : ∀ {st : Executor} {fuel : ℕ}, st.lineStart = st.current →
    st.buffer.drop st.current = t ++ 0 :: zs → 0 ∉ t → t.length < fuel → st.Truthful →
    ∃ st', scanLines answer fuel st = some st' ∧ st'.Truthful ∧
      st'.calls = (submit answer st.calls (Lines.terminated (chr '\n') t)).1 ∧
      if (submit answer st.calls (Lines.terminated (chr '\n') t)).2 = true
      then Through st.buffer (Lines.unfinished (chr '\n') t) zs st' else Broken st.buffer st' := by
  induction t using Lines.induction (chr '\n') with
  | last t hn =>
    intro st fuel hs hd h0 hf htr
    obtain ⟨n, rfl⟩ : ∃ n, fuel = n + 1 + t.length := ⟨fuel - 1 - t.length, by omega⟩
    have hdt : st.buffer.drop (st.current + t.length) = 0 :: zs := by
      rw [← List.drop_drop, hd, List.drop_left]
    have hend : Executor.cur { st with current := st.current + t.length } = 0 := cur_of_drop hdt
    rw [Lines.terminated_of_notMem hn, Lines.unfinished_of_notMem hn, scanLines_line h0 hn hd,
      scanLines, if_pos hend]
    refine ⟨_, rfl, htr, rfl, ?_⟩
    exact (if_pos rfl).mpr ⟨rfl, hs ▸ hd, by rw [hs]⟩
  | line l t hn ih =>
    intro st fuel hs hd h0 hf htr
    obtain ⟨hl0, ht0⟩ : 0 ∉ l ∧ 0 ∉ t := by
      simp only [List.mem_append, List.mem_cons, not_or] at h0
      exact ⟨h0.1, h0.2.2⟩
    rw [List.length_append, List.length_cons] at hf
    obtain ⟨n, rfl⟩ : ∃ n, fuel = n + 1 + l.length := ⟨fuel - 1 - l.length, by omega⟩
    rw [List.append_assoc, List.cons_append] at hd
    obtain ⟨hnl, hd'⟩ := at_newline hd
    rw [Lines.terminated_append_cons hn, Lines.unfinished_append_cons hn]
    by_cases hl : l = []
    · subst hl
      rw [scanLines_line hl0 hn hd, scanLines_empty (by exact hs) hnl, submit, if_pos rfl]
      exact @ih { st with lineStart := st.current + 1, current := st.current + 1 } n rfl hd' ht0
        (by simp at hf; omega) htr
    · rw [scanLines_run hs hl0 hn hl hd, submit, if_neg hl]
      have hran : (ran answer l { st with current := st.current + l.length }).Truthful :=
        Truthful.ran htr
      cases hb : answer st.calls l with
      | true =>
        have hih := @ih { ran answer l { st with current := st.current + l.length } with
            buffer := st.buffer
            lineStart := st.current + l.length + 1
            current := st.current + l.length + 1 } n rfl hd' ht0 (by omega) hran
        simpa only [ran, hb, if_true] using hih
      | false =>
        rw [if_neg Bool.false_ne_true, if_neg Bool.false_ne_true]
        refine ⟨_, rfl, hran, by rw [← hb]; rfl, (if_neg Bool.false_ne_true).mpr ?_⟩
        exact ⟨lineStart_lt hs hl, hnl, rfl⟩

/-- Behind the loop the unfinished line is run, if there is one. -/
theorem lastLine_of_through {buffer rest : List Byte} (h : Through buffer rest zs st)
    (h0 : 0 ∉ rest) : (st.lastLine answer).calls
      = if rest = [] then st.calls else st.calls ++ [(rest, answer st.calls rest)] := by
  have hline : st.line = rest := by rw [line, h.drop, cstr_append_zero h0]
  rw [lastLine, h.current]
  by_cases hr : rest = []
  · rw [if_pos hr, if_neg (by simp [hr])]
  · rw [if_neg hr, if_pos (Nat.lt_add_of_pos_right (List.length_pos_iff.mpr hr)), runLine,
      lineSuccess, hline]

theorem Truthful.lastLine (h : st.Truthful) : (st.lastLine answer).Truthful := by
  rw [Executor.lastLine]
  split
  · exact h.runLine
  · exact h

theorem buffer_lastLine (st : Executor) : (st.lastLine answer).buffer = st.buffer := by
  rw [lastLine]
  split <;> rfl

end Executor

section Results

open Executor

variable (answer : Calls → List Byte → Bool)

theorem submit_append (calls : Calls) (ls us : List (List Byte)) :
    submit answer calls (ls ++ us) = if (submit answer calls ls).2 = true
      then submit answer (submit answer calls ls).1 us else submit answer calls ls := by
  induction ls generalizing calls with
  | nil => rfl
  | cons l ls ih =>
    rw [List.cons_append, submit, submit]
    by_cases hl : l = []
    · rw [if_pos hl, if_pos hl, ih]
    · rw [if_neg hl, if_neg hl]
      cases answer calls l with
      | true => rw [if_pos rfl, if_pos rfl, ih]
      | false => rfl

/-- The call of the unfinished line. -/
theorem submit_singleton (calls : Calls) (l : List Byte) : (submit answer calls [l]).1
    = if l = [] then calls else calls ++ [(l, answer calls l)] := by
  rw [submit]
  by_cases hl : l = []
  · rw [if_pos hl, if_pos hl, submit]
  · rw [if_neg hl, if_neg hl]
    cases answer calls l <;> rfl

/-- No line of the program that ends in a newline fails. -/
def NoLineFails (p : Program) : Prop :=
  (submit answer [] (Lines.terminated (chr '\n') p.text)).2 = true

/-- In front of the loop only the terminator has been written. -/
theorem start_buffer (p : Program) : (start p.buffer p.text.length).buffer
    = p.buffer.set p.text.length 0 := by
  have hpos : ¬ p.text.length ≥ editorBufferSize := Nat.not_le.mpr p.fits
  change p.buffer.set (if p.text.length ≥ editorBufferSize then _ else _) 0 = _
  rw [if_neg hpos]

theorem start_text (p : Program) : (start p.buffer p.text.length).buffer
    = p.text ++ 0 :: p.behind.tail := by
  have hbehind : p.behind ≠ [] := fun h => by
    have := p.size
    have := p.fits
    rw [h, List.length_nil] at *
    omega
  obtain ⟨c, cs, hc⟩ := List.exists_cons_of_ne_nil hbehind
  rw [start_buffer, Program.buffer, List.set_append_right _ _ le_rfl, Nat.sub_self, hc]
  rfl

theorem getD_set_zero (l : List Byte) (i : ℕ) : (l.set i 0).getD i 0 = 0 := by
  grind

theorem getD_set_of_ne {l : List Byte} {i j : ℕ} (h : j ≠ i) (c : Byte) :
    (l.set i c).getD j 0 = l.getD j 0 := by
  grind

theorem zero_notMem_unfinished (p : Program) : 0 ∉ Lines.unfinished (chr '\n') p.text := fun h =>
  p.noNul (Lines.unfinished_subset _ _ h)

/-- **The loop of `execute_buffer`** ends behind the text, or at the newline of a line that has
failed. -/
theorem executeBuffer_loop (p : Program) :
    ∃ st, scanLines answer (p.buffer.length + 1) (start p.buffer p.text.length) = some st ∧
      executeBuffer answer p.buffer p.text.length = some (st.lastLine answer).report ∧
      st.Truthful ∧ st.calls = (submit answer [] (Lines.terminated (chr '\n') p.text)).1 ∧
      if (submit answer [] (Lines.terminated (chr '\n') p.text)).2 = true
      then Through (start p.buffer p.text.length).buffer (Lines.unfinished (chr '\n') p.text)
        p.behind.tail st
      else Broken (start p.buffer p.text.length).buffer st := by
  have hlen : p.text.length < p.buffer.length + 1 := by
    rw [Program.buffer, List.length_append]
    omega
  obtain ⟨st, hrun, htr, hcalls, hend⟩ := @scanLines_text answer p.behind.tail p.text
    (start p.buffer p.text.length) _ rfl (start_text p) p.noNul hlen rfl
  exact ⟨st, hrun, by rw [executeBuffer, hrun]; rfl, htr, hcalls, hend⟩

/-- **A run of `execute_buffer`**: it ends; it makes the calls it should if no line that ends in a
newline fails, leaving the buffer alone but for the terminator; otherwise it makes one call more,
and leaves a NUL for a newline. -/
theorem executeBuffer_run (p : Program) :
    ∃ st, executeBuffer answer p.buffer p.text.length = some st ∧ st.Truthful ∧
      (NoLineFails answer p →
        st.calls = (submit answer [] (p.text.splitOn (chr '\n'))).1 ∧
        st.buffer = (start p.buffer p.text.length).buffer) ∧
      (¬ NoLineFails answer p →
        (∃ c, st.calls = (submit answer [] (p.text.splitOn (chr '\n'))).1 ++ [c]) ∧
        ∃ i, (start p.buffer p.text.length).buffer.getD i 0 = chr '\n' ∧
          st.buffer.getD i 0 = 0) := by
  obtain ⟨st, -, hbuffer, htr, hcalls, hend⟩ := executeBuffer_loop answer p
  refine ⟨(st.lastLine answer).report, hbuffer, htr.lastLine, fun hno => ?_, fun hno => ?_⟩
  · have hthrough := (if_pos hno).mp hend
    refine ⟨?_, (buffer_lastLine st).trans hthrough.buffer⟩
    rw [NoLineFails] at hno
    rw [Lines.splitOn_eq, submit_append, if_pos hno, submit_singleton]
    exact (lastLine_of_through hthrough (zero_notMem_unfinished p)).trans (by rw [hcalls])
  · have hbroken := (if_neg hno).mp hend
    refine ⟨⟨(st.line, st.lineSuccess answer), ?_⟩, st.current, hbroken.newline, ?_⟩
    · rw [NoLineFails] at hno
      rw [Lines.splitOn_eq, submit_append, if_neg hno, report, lastLine, if_pos hbroken.lt, runLine,
        hcalls]
    · rw [report, buffer_lastLine, hbroken.buffer, getD_set_zero]

/-- **The lines are run once each, exactly if no line that ends in a newline fails.**  What is
reported is always what the calls have returned. -/
theorem executeBuffer_calls_iff (p : Program) :
    ∃ st, executeBuffer answer p.buffer p.text.length = some st ∧
      (st.calls.map Prod.fst = (submit answer [] (p.text.splitOn (chr '\n'))).1.map Prod.fst ∧
          (st.overallSuccess = true ↔ ∀ c ∈ st.calls, c.2 = true) ↔ NoLineFails answer p) := by
  obtain ⟨st, hrun, htr, hgood, hbad⟩ := executeBuffer_run answer p
  have hreport : st.overallSuccess = true ↔ ∀ c ∈ st.calls, c.2 = true := by
    rw [htr, List.all_eq_true]
  refine ⟨st, hrun, ⟨fun h => ?_, fun hno => ⟨by rw [(hgood hno).1], hreport⟩⟩⟩
  by_contra hno
  obtain ⟨⟨c, hc⟩, _⟩ := hbad hno
  have hlen := congrArg List.length h.1
  rw [hc, List.length_map, List.length_map, List.length_append, List.length_singleton] at hlen
  omega

/-- A second run does what a first one would: it finds the terminator where it puts it. -/
theorem executeBuffer_start (p : Program) :
    executeBuffer answer (start p.buffer p.text.length).buffer p.text.length
      = executeBuffer answer p.buffer p.text.length := by
  have hagain : start (p.buffer.set p.text.length 0) p.text.length
      = start p.buffer p.text.length := by
    rw [start, start, if_neg (Nat.not_le.mpr p.fits), List.set_set]
  rw [executeBuffer, executeBuffer, start_buffer, List.length_set, hagain]

/-- **The program is left as it was, but for the terminator behind it, and so runs again as it did,
exactly if no line that ends in a newline fails.** -/
theorem executeBuffer_buffer_iff (p : Program) :
    ∃ st, executeBuffer answer p.buffer p.text.length = some st ∧
      ((∀ i, i ≠ p.text.length → st.buffer.getD i 0 = p.buffer.getD i 0) ∧
          (∀ answer', executeBuffer answer' st.buffer p.text.length
            = executeBuffer answer' p.buffer p.text.length) ↔
        NoLineFails answer p) := by
  obtain ⟨st, hrun, _, hgood, hbad⟩ := executeBuffer_run answer p
  have hstart (i : ℕ) (hi : i ≠ p.text.length) :
      (start p.buffer p.text.length).buffer.getD i 0 = p.buffer.getD i 0 := by
    rw [start_buffer, getD_set_of_ne hi]
  refine ⟨st, hrun, ⟨fun h => ?_, fun hno => ⟨fun i hi => ?_, fun answer' => ?_⟩⟩⟩
  · by_contra hno
    obtain ⟨_, i, hnl, h0⟩ := hbad hno
    have hi : i ≠ p.text.length := by
      rintro rfl
      rw [start_buffer, getD_set_zero] at hnl
      exact absurd hnl (by decide)
    rw [h.1 i hi, ← hstart i hi, hnl] at h0
    exact absurd h0 (by decide)
  · rw [(hgood hno).2, hstart i hi]
  · rw [(hgood hno).2, executeBuffer_start]

/-- `a`, newline, `b`. -/
def twoLines : Program where
  text := [chr 'a', chr '\n', chr 'b']
  behind := List.replicate 4093 0
  noNul := by decide
  fits := by decide
  size := by rw [List.length_replicate]; rfl

/-- Where the line `a` fails, it is run twice. -/
theorem not_calls_of_failing_line : ¬ ∀ (answer : Calls → List Byte → Bool) (p : Program) (st),
    executeBuffer answer p.buffer p.text.length = some st →
    st.calls.map Prod.fst = (submit answer [] (p.text.splitOn (chr '\n'))).1.map Prod.fst ∧
      (st.overallSuccess = true ↔ ∀ c ∈ st.calls, c.2 = true) := by
  intro hall
  have hrun : (executeBuffer (fun _ l => l ≠ [chr 'a']) twoLines.buffer 3).map
      (fun st => st.calls.map Prod.fst) = some [[chr 'a'], [chr 'a']] := by decide +kernel
  obtain ⟨st, hst, hcalls⟩ := Option.map_eq_some_iff.mp hrun
  have heq := (hall _ twoLines st hst).1
  rw [hcalls] at heq
  exact absurd heq (by decide +kernel)

/-- Where the line `a` fails, its newline is gone. -/
theorem not_preserved_of_failing_line : ¬ ∀ (answer : Calls → List Byte → Bool) (p : Program) (st),
    executeBuffer answer p.buffer p.text.length = some st →
    (∀ i, i ≠ p.text.length → st.buffer.getD i 0 = p.buffer.getD i 0) ∧
      ∀ answer', executeBuffer answer' st.buffer p.text.length
        = executeBuffer answer' p.buffer p.text.length := by
  intro hall
  have hrun : (executeBuffer (fun _ l => l ≠ [chr 'a']) twoLines.buffer 3).map
      (fun st => st.buffer.getD 1 0) = some 0 := by decide +kernel
  obtain ⟨st, hst, hbuf⟩ := Option.map_eq_some_iff.mp hrun
  have heq := (hall _ twoLines st hst).1 1 (by decide)
  rw [hbuf] at heq
  exact absurd heq (by decide +kernel)

end Results

end HuskyKernel
