import HuskyKernel.Kernel.Arguments
import HuskyKernel.System.Printk

/-!
# Kernel/Verbatim — a text that is handed to `printk` as its format

`wrstr` and `getkey` hand the text they are to print to `printk` as the format, with no argument
behind it.  Where the text has no conversion it is printed as it is, whatever lies on the stack;
where it has one, the conversion is replaced by what the stack makes of it (`verbatim_iff`).
-/

namespace HuskyKernel

open Mem Strtok Printk

namespace Printk

/-- `wrstr`. -/
def wrstr (m : Mem) (k : Stack) (str : Word) : Option (List Byte) := printk m k str

end Printk

/-- `getkey`, with the line and `" "` as strings in memory: what the round of the prompt prints;
`none` for a line that is for another command. -/
def getkey (k : Stack) (t : Strtok) (command d : Word) (args : Args) : Option (List Byte) :=
  match splitCommand t command d args with
  | .error _ => none
  | .ok (argCount, args, t) => do
      if argCount = 0 then none
      let name ← t.mem.cstr? (args.entries.getD 0 0)
      if strcmp name (str "getkey") = 0 then
        if argCount > 1 then printk t.mem k (args.entries.getD 1 0)
        else return str "Usage: getkey <key>\n"
      else none

variable {m : Mem} {k : Stack} {p : Word} {s : List Byte}

/-! ## The line and its words -/

/-- An argument: it is not empty, and has no blank in it. -/
def IsWord (s : List Byte) : Prop := s ≠ [] ∧ chr ' ' ∉ s

theorem getElem?_line (s : List Byte) (j : ℕ) : (str "getkey " ++ s)[7 + j]? = s[j]? :=
  (List.getElem?_append_right (Nat.le_add_right 7 j)).trans
    (congrArg (s[·]?) (Nat.add_sub_cancel_left 7 j))

/-- The words of the line are the command and its argument. -/
theorem words_getkey (h : IsWord s) :
    words (str "getkey " ++ s) = [(0, 6), (7, 7 + s.length)] := by
  have hcommand : ∀ j < 7, ((str "getkey " ++ s)[j]?).any (isWord (str " ")) = decide (j < 6) := by
    intro j hj
    rw [List.getElem?_append_left hj]
    have hall : ∀ j < 7, ((str "getkey ")[j]?).any (isWord (str " ")) = decide (j < 6) := by
      decide +kernel
    exact hall j hj
  have hfirst : Run (isWord (str " ")) (str "getkey " ++ s) 0 6 := by
    refine Run.iff.mpr ⟨by decide, fun j hj _ => ?_, fun j hj => absurd hj (Nat.not_lt_zero j), ?_⟩
    · rw [hcommand j (by omega), decide_eq_true hj]
    · rw [hcommand 6 (by decide)]
      rfl
  have hsecond : Run (isWord (str " ")) (str "getkey " ++ s) 7 (7 + s.length) := by
    have hpos := List.length_pos_iff.mpr h.1
    refine Run.iff.mpr ⟨by omega, fun j hj hle => ?_, fun j hj heq => ?_, ?_⟩
    · obtain ⟨j, rfl⟩ := Nat.exists_eq_add_of_le hle
      have hlt : j < s.length := by omega
      rw [getElem?_line, List.getElem?_eq_getElem hlt, Option.any_some, isWord_iff]
      intro hmem
      have hblank : s[j] = chr ' ' := List.mem_singleton.mp hmem
      exact h.2 (hblank ▸ List.getElem_mem hlt)
    · rw [hcommand j hj, decide_eq_false (by omega)]
    · rw [getElem?_line, List.getElem?_eq_none le_rfl, Option.any_none]
  rw [words, Run.runs_of_run hfirst, Run.runs_of_run hsecond, Run.runs_of_length_le]
  rw [List.length_append]
  exact Nat.le_succ _

variable {t : Strtok} {command d : Word}

/-- **`getkey` prints its argument** as a format, from a memory in which it is a string. -/
theorem getkey_eq (h : IsWord s) (htokens : Tokens t.mem command d (str "getkey " ++ s) (str " "))
    (args : Args) : ∃ m p, m.cstr? p = some s ∧ getkey k t command d args = printk m k p := by
  obtain ⟨t', hmem, hsplit⟩ := splitCommand_words htokens args
  have hruns : ∀ r ∈ words (str "getkey " ++ s),
      Run (isWord (str " ")) (str "getkey " ++ s) r.1 r.2 := fun r hr =>
    ((Run.mem_runs_iff fun m hm => absurd hm m.succ_ne_zero).mp hr).2
  have hname : t'.mem.cstr? (command + BitVec.ofNat 32 0) = some (str "getkey") := by
    rw [hmem]
    exact htokens.cstr?_cut hruns (words_getkey h ▸ List.mem_cons_self)
  have harg : t'.mem.cstr? (command + BitVec.ofNat 32 7) = some s := by
    have hextract : (str "getkey " ++ s).extract 7 (7 + s.length) = s := by
      rw [List.extract_eq_take_drop, Nat.add_sub_cancel_left]
      exact List.take_length
    have hcut := htokens.cstr?_cut hruns (i := 7) (j := 7 + s.length)
      (words_getkey h ▸ List.mem_cons_of_mem _ List.mem_cons_self)
    rwa [hextract, ← hmem] at hcut
  obtain ⟨args', hstore⟩ : ∃ args', args.storeAll 0
      [command + BitVec.ofNat 32 0, command + BitVec.ofNat 32 7] = some args' :=
    Option.isSome_iff_exists.mp
      ((Args.isSome_storeAll (Nat.zero_le _)).mpr (show 0 + 2 ≤ argsSize by decide))
  have hentries := Args.entries_storeAll hstore (Nat.zero_le _)
  have hfirst : args'.entries.getD 0 0 = command + BitVec.ofNat 32 0 := by
    rw [hentries]
    rfl
  have hsecond : args'.entries.getD 1 0 = command + BitVec.ofNat 32 7 := by
    rw [hentries]
    rfl
  have hgetkey : strcmp (str "getkey") (str "getkey") = 0 := strcmp_eq_zero_iff.mpr rfl
  rw [words_getkey h] at hsplit
  simp only [List.map_cons, List.map_nil, hstore] at hsplit
  refine ⟨t'.mem, _, harg, ?_⟩
  rw [getkey, hsplit]
  simp only [hfirst, hsecond, hname, Option.bind_eq_bind, Option.bind_some, hgetkey]
  rfl

/-! ## Printed as it is -/

/-- `s` is printed as it is by `wrstr`, and as an argument of `getkey`: whatever else lies in memory
and on the stack. -/
structure Verbatim (s : List Byte) : Prop where
  wrstr : ∀ m k p, m.cstr? p = some s → wrstr m k p = some s
  getkey : IsWord s → ∀ k t command d args,
    Tokens t.mem command d (str "getkey " ++ s) (str " ") → getkey k t command d args = some s

/-- With zeros for arguments a conversion makes a format shorter. -/
theorem exists_expands (hzero : m.cstr? 0 = some []) : ∀ s : List Byte, ∃ n text,
    Expands m s (List.replicate n 0) text ∧ text.length + (hasConversion s).toNat ≤ s.length
  | [] => ⟨0, [], .nil, le_rfl⟩
  | [c] => by
      refine ⟨0, [c], expands_self rfl, ?_⟩
      rw [hasConversion]
      rfl
  | c :: d :: s => by
      rw [hasConversion]
      by_cases hc : c = chr '%'
      · obtain ⟨n, text, hexp, hlen⟩ := exists_expands hzero s
        subst hc
        rw [if_pos rfl]
        by_cases hd : d = chr 'd'
        · subst hd
          refine ⟨n + 1, _, Expands.int 0 hexp, ?_⟩
          have htext : (itoa 0 10 ++ text).length = text.length + 1 := by
            rw [List.length_append, Nat.add_comm]
            rfl
          have hone := Bool.toNat_le (hasConversion s)
          rw [htext, decide_eq_true rfl, Bool.true_or, Bool.true_or, List.length_cons,
            List.length_cons, Bool.toNat_true]
          omega
        by_cases hs : d = chr 's'
        · subst hs
          refine ⟨n + 1, _, Expands.str hzero hexp, ?_⟩
          rw [decide_eq_true rfl, Bool.or_true, Bool.true_or, List.length_cons, List.length_cons,
            List.nil_append, Bool.toNat_true]
          omega
        · refine ⟨n, _, Expands.other hd hs hexp, ?_⟩
          rw [decide_eq_false hd, decide_eq_false hs, Bool.false_or, Bool.false_or,
            List.length_cons, List.length_cons, List.length_cons, List.length_cons]
          omega
      · obtain ⟨n, text, hexp, hlen⟩ := exists_expands hzero (d :: s)
        rw [if_neg hc]
        refine ⟨n, _, Expands.char hc hexp, ?_⟩
        rw [List.length_cons, List.length_cons]
        omega

/-- The text at 4K, in an empty memory. -/
def textMem (s : List Byte) : Mem := Mem.store (fun _ => 0) 0x1000 (s ++ [0])

theorem cstr?_textMem (h0 : 0 ∉ s) (hlen : s.length ≤ 255) :
    (textMem s).cstr? 0x1000 = some s ∧ (textMem s).cstr? 0 = some [] := by
  have hsize : (s ++ [0]).length ≤ 256 := by
    rw [List.length_append, List.length_singleton]
    omega
  have hout : ¬ Within (0x1000 : Word) (s ++ [0]).length 0 := by
    rw [Within]
    exact not_lt.mpr (hsize.trans (by decide))
  have hzero : textMem s 0 = 0 := store_of_not_within (hsize.trans (by decide)) hout
  exact ⟨cstr?_store _ _ h0 (hlen.trans_lt (by decide)),
    cstr?_eq_some.mpr ⟨List.not_mem_nil, by decide, holds_cons.mpr ⟨hzero, rfl⟩⟩⟩

/-- **A conversion is not printed as it is**: with zeros on the stack something shorter comes out.
-/
theorem not_verbatim (h0 : 0 ∉ s) (hlen : s.length ≤ 255) (hconv : hasConversion s = true) :
    ¬ Verbatim s := by
  intro h
  obtain ⟨htext, hzero⟩ := cstr?_textMem h0 hlen
  obtain ⟨n, text, hexp, hshort⟩ := exists_expands hzero s
  rw [hconv, Bool.toNat_true] at hshort
  have hprint := printk_eq (k := ⟨fun _ => 0, fun _ => 0, fun _ => 0⟩) htext hexp
    (fun i hi => by rw [List.getD_eq_getElem _ _ hi, List.getElem_replicate]) (by omega)
  have heq := hprint.symm.trans (h.wrstr _ _ _ htext)
  rw [Option.some.injEq] at heq
  rw [heq] at hshort
  omega

/-- **A text is printed as it is exactly if it has no conversion.** -/
theorem verbatim_iff (h0 : 0 ∉ s) (hlen : s.length ≤ 255) :
    Verbatim s ↔ hasConversion s = false := by
  constructor
  · intro h
    by_contra hconv
    exact not_verbatim h0 hlen (Bool.not_eq_false _ ▸ hconv) h
  · intro hconv
    have hprint : ∀ {m k p}, m.cstr? p = some s → printk m k p = some s := fun hp =>
      printk_eq hp (expands_self hconv) (fun _ hi => absurd hi (Nat.not_lt_zero _)) hlen
    refine ⟨fun m k p hp => hprint hp, fun hword k t command d args htokens => ?_⟩
    obtain ⟨m, p, hp, heq⟩ := getkey_eq hword htokens args
    rw [heq, hprint hp]

/-- A percent sign is no conversion. -/
theorem verbatim_iff_percent : Verbatim (str "100%!") :=
  (verbatim_iff (by decide +kernel) (by decide)).mpr (by decide +kernel)

/-- **`%d` is not printed**, but a number from the stack. -/
theorem not_verbatim_d : ¬ Verbatim (str "%d") :=
  not_verbatim (by decide +kernel) (by decide) (by decide +kernel)

end HuskyKernel
