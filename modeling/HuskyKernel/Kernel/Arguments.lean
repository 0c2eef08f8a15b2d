import HuskyKernel.Kernel.CommandLine
import HuskyKernel.System.Strtok

/-!
# Kernel/Arguments — how the prompt cuts a command into arguments

`split_command` stores a pointer for every word of the line; nothing but the line tells it when to
stop.  `args` has room for ten, so a line of more words is stored behind its end
(`splitCommand_iff`).
-/

namespace HuskyKernel

open Mem Strtok CommandLine

/-- The number of entries of `args`. -/
def argsSize : ℕ := 10

/-- `args`. -/
structure Args where
  entries : List Word
  size : entries.length = argsSize

/-- How `split_command` goes wrong. -/
inductive SplitFault where
  | outside
  | endless
deriving DecidableEq, Repr

/-- `args[i] = token`; `none` where that is not in the array. -/
def Args.store (i : ℕ) (token : Word) (a : Args) : Option Args :=
  if i < argsSize then some ⟨a.entries.set i token, List.length_set.trans a.size⟩ else none

/-- The loop of `split_command`, in at most `n` rounds. -/
def splitLoop (d : Word) :
    ℕ → Word → ℕ → Args → Strtok → Except SplitFault (ℕ × Args × Strtok)
  | 0, _, _, _, _ => .error .endless
  | n + 1, token, argCount, args, t =>
      if token = 0 then .ok (argCount, args, t)
      else
        match args.store argCount token with
        | none => .error .outside
        | some args =>
            match t.strtok 0 d with
            | none => .error .endless
            | some (token, t) => splitLoop d n token (argCount + 1) args t

/-- `split_command`; `" "` lies at `d`. -/
def splitCommand (t : Strtok) (command d : Word) (args : Args) :
    Except SplitFault (ℕ × Args × Strtok) :=
  match t.strtok command d with
  | none => .error .endless
  | some (token, t) => splitLoop d span token 0 args t

/-! ## The loop -/

section Loop

variable {t t₁ t' : Strtok} {p d token : Word} {ws : List Word} {args args' : Args} {i n : ℕ}

/-- Store `ws` in `args`, from entry `i` on. -/
def Args.storeAll : ℕ → List Word → Args → Option Args
  | _, [], a => some a
  | i, w :: ws, a => (a.store i w).bind (storeAll (i + 1) ws)

theorem Args.isSome_storeAll (hi : i ≤ argsSize) :
    (args.storeAll i ws).isSome ↔ i + ws.length ≤ argsSize := by
  induction ws generalizing i args with
  | nil => exact iff_of_true rfl hi
  | cons w ws ih =>
    rw [storeAll, store, List.length_cons]
    by_cases hlt : i < argsSize
    · rw [if_pos hlt, Option.bind_some, ih hlt]
      omega
    · rw [if_neg hlt, Option.bind_none]
      exact iff_of_false Bool.false_ne_true (by omega)

/-- What has been stored is there. -/
theorem Args.entries_storeAll (h : args.storeAll i ws = some args') (hi : i ≤ argsSize) :
    args'.entries = args.entries.take i ++ ws ++ args.entries.drop (i + ws.length) := by
  induction ws generalizing i args with
  | nil =>
    obtain rfl := Option.some.inj h
    rw [List.append_nil, List.length_nil, Nat.add_zero, List.take_append_drop]
  | cons w ws ih =>
    rw [storeAll, store] at h
    by_cases hlt : i < argsSize
    · rw [if_pos hlt, Option.bind_some] at h
      have hsize : i < args.entries.length := args.size.symm ▸ hlt
      have hset : (args.entries.set i w).take (i + 1) = args.entries.take i ++ [w] := by
        rw [List.take_succ_eq_append_getElem (List.length_set.symm ▸ hsize), List.getElem_set_self,
          List.take_set_of_le (Nat.le_refl _)]
      rw [ih h hlt, hset, List.drop_set_of_lt (by omega), List.length_cons, List.append_assoc,
        List.append_assoc, List.append_assoc, Nat.add_right_comm, Nat.add_assoc]
      rfl
    · rw [if_neg hlt] at h
      cases h

/-- **The loop stores the tokens**, one after another, until one is outside — induction on the
tokens. -/
theorem splitLoop_eq (htoken : t.strtok p d = some (token, t₁))
    (hcalls : t.calls p d (ws.length + 1) = some (ws ++ [0], t')) (hws : ∀ w ∈ ws, w ≠ 0)
    (hn : ws.length < n) : splitLoop d n token i args t₁ =
      match args.storeAll i ws with
      | none => .error .outside
      | some args' => .ok (i + ws.length, args', t') := by
  induction ws generalizing t t₁ p token args i n with
  | nil =>
    obtain ⟨n, rfl⟩ := Nat.exists_eq_succ_of_ne_zero (Nat.ne_zero_of_lt hn)
    rw [calls_succ htoken] at hcalls
    cases hcalls
    rw [splitLoop, if_pos rfl]
    rfl
  | cons w ws ih =>
    obtain ⟨n, rfl⟩ := Nat.exists_eq_succ_of_ne_zero (Nat.ne_zero_of_lt hn)
    rw [calls_succ htoken, List.cons_append] at hcalls
    obtain ⟨⟨tokens, t₂⟩, hrest, heq⟩ := Option.map_eq_some_iff.mp hcalls
    obtain ⟨heq, rfl⟩ := Prod.ext_iff.mp heq
    obtain ⟨rfl, rfl⟩ := List.cons_eq_cons.mp heq
    rw [splitLoop, if_neg (hws token List.mem_cons_self), Args.storeAll]
    cases hstore : args.store i token with
    | none => rfl
    | some args₁ =>
      cases hnext : t₁.strtok 0 d with
      | none =>
        rw [List.length_cons, calls, hnext] at hrest
        cases hrest
      | some r =>
        obtain ⟨token', t₃⟩ := r
        refine (ih (i := i + 1) hnext hrest
          (fun w hw => hws w (List.mem_cons_of_mem _ hw)) (Nat.lt_of_succ_lt_succ hn)).trans ?_
        rw [List.length_cons, Nat.add_assoc, Nat.add_comm 1]
        rfl

end Loop

/-! ## A line in memory -/

/-- The words of a line: its maximal runs without a blank. -/
def words (text : List Byte) : List (ℕ × ℕ) := runs (isWord (str " ")) text 0

section Words

variable {t : Strtok} {command d : Word} {text : List Byte} {args : Args}

/-- **What `split_command` does with a line**: it stores a pointer to each word, in order, and cuts
the line behind each. -/
theorem splitCommand_words (h : Tokens t.mem command d text (str " ")) (args : Args) :
    ∃ t', t'.mem = cut t.mem command text.length (words text) ∧ splitCommand t command d args =
      match args.storeAll 0 ((words text).map fun r => command + BitVec.ofNat 32 r.1) with
      | none => .error .outside
      | some args' => .ok ((words text).length, args', t') := by
  have hboundary : Boundary (isWord (str " ")) text 0 := fun m hm => absurd hm m.succ_ne_zero
  have hlen : (words text).length ≤ text.length := Run.length_runs_le _ _ _
  have hfits := h.fits
  obtain ⟨t', hmem, hcalls⟩ : ∃ t', t'.mem = cut t.mem command text.length (words text) ∧
      t.calls command d ((words text).length + 1) =
        some (((words text).map fun r => command + BitVec.ofNat 32 r.1) ++ [0], t') := by
    obtain ⟨q, hq⟩ := calls_runs (h.at_zero rfl) h.apart ((words text).length + 1)
    rw [show runs (isWord (str " ")) text 0 = words text from rfl,
      List.take_of_length_le (by simp), List.take_of_length_le (Nat.le_succ _),
      Nat.add_sub_cancel_left] at hq
    exact ⟨_, rfl, hq⟩
  have hne : ∀ w ∈ (words text).map fun r => command + BitVec.ofNat 32 r.1, w ≠ 0 := by
    intro w hw
    obtain ⟨⟨i, j⟩, hr, rfl⟩ := List.mem_map.mp hw
    have hrun := ((Run.mem_runs_iff hboundary).mp hr).2
    exact (h.at_zero rfl).add_ne_null (hrun.lt.le.trans hrun.le_length)
  obtain ⟨⟨token, t₁⟩, htoken, -⟩ := Option.bind_eq_some_iff.mp hcalls
  refine ⟨t', hmem, ?_⟩
  rw [splitCommand, htoken]
  refine (splitLoop_eq htoken (by rw [List.length_map]; exact hcalls) hne ?_).trans ?_
  · rw [List.length_map, span]
    omega
  · rw [List.length_map, Nat.zero_add]

/-- It stays inside `args` exactly if there are at most ten of them. -/
theorem splitCommand_ok_iff (h : Tokens t.mem command d text (str " ")) (args : Args) :
    (∃ r, splitCommand t command d args = .ok r) ↔ (words text).length ≤ argsSize := by
  obtain ⟨t', -, ht'⟩ := splitCommand_words h args
  have hfits {ws : List Word} : (args.storeAll 0 ws).isSome ↔ 0 + ws.length ≤ argsSize :=
    Args.isSome_storeAll (Nat.zero_le _)
  rw [ht', ← List.length_map (f := fun r : ℕ × ℕ => command + BitVec.ofNat 32 r.1),
    ← Nat.zero_add (List.length _), ← hfits]
  cases args.storeAll 0 _ with
  | none => simp
  | some args' => simp

/-- `command`, with a line in it, and `" "`: they are different objects. -/
structure Loaded (m : Mem) (command d : Word) (buffer : List Byte) : Prop where
  ne_null : command ≠ 0
  fits : command.toNat + commandSize ≤ 2 ^ 32
  holds : Holds m command buffer
  blank : m.cstr? d = some (str " ")
  apart : ∀ x, Within d 2 x → ¬ Within command commandSize x

/-- The call that ends a line stores a NUL. -/
theorem zero_mem_of_done {layout : KeyboardLayout} {beyond : Byte → Byte} {key : Byte}
    {c c' : CommandLine} (h : terminalInput layout beyond key c = some (true, c')) :
    0 ∈ c'.buffer := by
  by_cases h4 : key = 4
  · subst h4
    rw [terminalInput, if_neg (by decide), if_pos rfl] at h
    obtain ⟨c₁, hstore, heq⟩ := Option.map_eq_some_iff.mp h
    obtain ⟨-, rfl⟩ := Prod.ext_iff.mp heq
    rw [CommandLine.store] at hstore
    split_ifs at hstore with hlt
    obtain rfl := Option.some.inj hstore
    exact List.mem_set (c.size.symm ▸ hlt) 0
  · rw [terminalInput, if_neg h4] at h
    split_ifs at h <;> simp at h

/-- A line that has been read ends with a NUL. -/
theorem zero_mem_of_readLine {layout : KeyboardLayout} {beyond : Byte → Byte} {keys : List Byte}
    {c c' : CommandLine} (h : readLine layout beyond keys c = some c') : 0 ∈ c'.buffer := by
  induction keys generalizing c with
  | nil => cases h
  | cons key keys ih =>
    rw [readLine] at h
    obtain ⟨⟨done, c₁⟩, hin, hrest⟩ := Option.bind_eq_some_iff.mp h
    cases done with
    | false => exact ih hrest
    | true => exact Option.some.inj hrest ▸ zero_mem_of_done hin

/-- The line in `command` as a string to be cut. -/
theorem Loaded.tokens {m : Mem} {buffer : List Byte} (h : Loaded m command d buffer)
    (hsize : buffer.length = commandSize) (h0 : 0 ∈ buffer) :
    Tokens m command d (cstr buffer) (str " ") := by
  obtain ⟨rest, hsplit⟩ := eq_cstr_append h0
  have hlen : (cstr buffer).length < commandSize := by
    rw [← hsize, congrArg List.length hsplit, List.length_append, List.length_cons]
    omega
  have hfits := h.fits
  refine ⟨h.ne_null, by omega, cstr?_eq_some.mpr ⟨zero_notMem_cstr _, ?_, ?_⟩, h.blank,
    fun x hx hin => h.apart x hx (hin.mono hlen)⟩
  · rw [span]
    omega
  · have hholds := h.holds
    rw [hsplit, show (0 : Byte) :: rest = [0] ++ rest from rfl, ← List.append_assoc] at hholds
    exact hholds.left

end Words

/-- **`split_command` stays inside `args` exactly if the line that was read has at most ten
words.** -/
theorem splitCommand_iff (layout : KeyboardLayout) (beyond : Byte → Byte) (keys : List Byte)
    (c c' : CommandLine) (hread : readLine layout beyond keys c.start = some c')
    (t : Strtok) (command d : Word) (hline : Loaded t.mem command d c'.buffer) (args : Args) :
    (∃ r, splitCommand t command d args = .ok r) ↔ (words (cstr c'.buffer)).length ≤ argsSize :=
  splitCommand_ok_iff (hline.tokens c'.size (zero_mem_of_readLine hread)) args

/-- The line at 4K, and `" "` below it. -/
def lineMem (c : CommandLine) : Mem :=
  (Mem.store (fun _ => 0) 0x600 (str " " ++ [0])).store 0x1000 c.buffer

theorem loaded_lineMem (c : CommandLine) : Loaded (lineMem c) 0x1000 0x600 c.buffer := by
  have hle : c.buffer.length ≤ span := by
    rw [c.size]
    decide
  have hapart : ∀ x : Word, Within 0x600 2 x → ¬ Within 0x1000 commandSize x := by
    intro x hx hin
    rw [Within] at hx
    rw [Within, commandSize] at hin
    bv_omega
  refine ⟨by decide, by decide, holds_store _ _ hle, ?_, hapart⟩
  refine cstr?_congr (cstr?_store (fun _ => 0) 0x600 (by decide) (by decide)) fun x hx => ?_
  refine store_of_not_within hle fun hin => hapart x ?_ (c.size ▸ hin)
  exact hx.mono (by decide)

/-- Eleven words of one letter. -/
def elevenWords : TypedLine commandSize :=
  .ofShort (str "a a a a a a a a a a a") (by decide +kernel) (by decide) (by decide)

/-- No entries yet. -/
def noArgs : Args := ⟨List.replicate argsSize 0, List.length_replicate⟩

theorem words_elevenWords {c : CommandLine} (h : cstr c.buffer =
    cstr ((Draft.typed false elevenWords.keys).strokes.map fun p =>
      inputChar .us (fun _ => 0) p.1 p.2)) : argsSize < (words (cstr c.buffer)).length := by
  have htext : cstr c.buffer = str "a a a a a a a a a a a" := h.trans (by decide +kernel)
  have hboundary : Boundary (isWord (str " ")) (str "a a a a a a a a a a a") 0 :=
    fun m hm => absurd hm m.succ_ne_zero
  have hsub : (List.range 11).map (fun i => (2 * i, 2 * i + 1)) ⊆
      words (str "a a a a a a a a a a a") := by
    intro r hr
    obtain ⟨i, hi, rfl⟩ := List.mem_map.mp hr
    refine (Run.mem_runs_iff hboundary).mpr ⟨Nat.zero_le _, ?_⟩
    have hall : ∀ i ∈ List.range 11,
        Run (isWord (str " ")) (str "a a a a a a a a a a a") (2 * i) (2 * i + 1) := by
      decide +kernel
    exact hall i hi
  rw [htext]
  exact (List.subperm_of_subset (by decide) hsub).length_le

theorem splitCommand_iff_elevenWords : ∃ c',
    readLine .us (fun _ => 0) (elevenWords.keys ++ [4]) blankLine.start = some c' ∧
      ((∃ r, splitCommand ⟨lineMem c', 0⟩ 0x1000 0x600 noArgs = .ok r) ↔
        (words (cstr c'.buffer)).length ≤ argsSize) := by
  obtain ⟨c', hread, -⟩ := readLine_typed .us (fun _ => 0) elevenWords blankLine []
  exact ⟨c', hread, splitCommand_iff .us _ _ blankLine c' hread ⟨lineMem c', 0⟩ _ _
    (loaded_lineMem c') noArgs⟩

/-- A line of eleven words can be typed, and the pointer to the last is stored behind `args`. -/
theorem not_splitCommand_elevenWords : ¬ ∀ (layout : KeyboardLayout) (beyond : Byte → Byte)
    (keys : List Byte) (c c' : CommandLine), readLine layout beyond keys c.start = some c' →
    ∀ (t : Strtok) (command d : Word), Loaded t.mem command d c'.buffer → ∀ args : Args,
      ∃ r, splitCommand t command d args = .ok r := by
  intro hall
  obtain ⟨c', hread, -, htext⟩ := readLine_typed .us (fun _ => 0) elevenWords blankLine []
  have hline := loaded_lineMem c'
  have hok := hall _ _ _ _ c' hread ⟨lineMem c', 0⟩ _ _ hline noArgs
  have hfew := (splitCommand_ok_iff (t := ⟨lineMem c', 0⟩)
    (hline.tokens c'.size (zero_mem_of_readLine hread)) noArgs).mp hok
  exact absurd hfew (Nat.not_le.mpr (words_elevenWords htext))

end HuskyKernel
