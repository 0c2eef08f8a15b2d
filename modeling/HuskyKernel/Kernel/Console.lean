import HuskyKernel.Drivers.Acpi
import HuskyKernel.Kernel.DiskList
import HuskyKernel.Kernel.Keystrokes
import HuskyKernel.Kernel.Prompt
import HuskyKernel.Kernel.Verbatim

/-!
# Kernel/Console — `terminal_prompt`, and what a round hears

A round reads a line into `command`, cuts it at the blanks and does what its first word names, all
of it through memory: the buffer, `*shift` at address 0, the blank in `.rodata`, the pointers in
`args`.  `exists_heard`: with at most ten words in the line, they are the words that were typed.
-/

namespace HuskyKernel

open Mem Strtok CommandLine

/-! ## The commands -/

/-- The commands of the prompt. -/
inductive Command
  | help | cl | getkey | edit | run | reboot | lsdisks | shutdown | unknown
deriving DecidableEq, Repr

/-- The chain of `strcmp`s. -/
def commandOf (name : List Byte) : Command :=
  if strcmp name (str "help") = 0 then .help
  else if strcmp name (str "cl") = 0 then .cl
  else if strcmp name (str "getkey") = 0 then .getkey
  else if strcmp name (str "edit") = 0 then .edit
  else if strcmp name (str "run") = 0 then .run
  else if strcmp name (str "reboot") = 0 then .reboot
  else if strcmp name (str "lsdisks") = 0 then .lsdisks
  else if strcmp name (str "shutdown") = 0 then .shutdown
  else .unknown

/-- The word of a command. -/
def Command.word : Command → List Byte
  | .help => str "help"
  | .cl => str "cl"
  | .getkey => str "getkey"
  | .edit => str "edit"
  | .run => str "run"
  | .reboot => str "reboot"
  | .lsdisks => str "lsdisks"
  | .shutdown => str "shutdown"
  | .unknown => []

theorem commandOf_word (c : Command) : commandOf c.word = c := by
  cases c <;> decide +kernel

/-- **A command is called by its word**, and by nothing else. -/
theorem commandOf_eq_iff {c : Command} (hc : c ≠ .unknown) (name : List Byte) :
    commandOf name = c ↔ strcmp name c.word = 0 := by
  constructor
  · rintro rfl
    rw [commandOf] at hc ⊢
    split_ifs at hc ⊢ with h1 h2 h3 h4 h5 h6 h7 h8
    · exact h1
    · exact h2
    · exact h3
    · exact h4
    · exact h5
    · exact h6
    · exact h7
    · exact h8
    · exact absurd rfl hc
  · intro h
    have heq : cstr name = cstr c.word := strcmp_eq_zero_iff.mp h
    have hsame : commandOf name = commandOf c.word := by
      simp only [commandOf, strcmp_eq_zero_iff, heq]
    rw [hsame, commandOf_word]

/-- What `help` prints. -/
def helpText : List Byte :=
  str "\nAvailable commands:\n" ++
  str "  help            - Show this help message\n" ++
  str "  lsdisks         - Shows the disks\n" ++
  str "  reboot          - Reboot the system\n" ++
  str "  shutdown        - Exit the terminal\n" ++
  str "  edit            - Start the program editor\n" ++
  str "  run             - Execute the current program\n" ++
  str "  cl              - Change Layout\n" ++
  str "  getkey          - Shows keycode pressed\n"

/-- Where `command`, a local of `terminal_prompt`, lies on the stack, where the linker has put `" "`
and the heap — the image starts at 2M, and `.rodata` stands before `.bss` — and what the prompt runs
on.  `stale` is the list that is read through a pointer to one that is gone: the language leaves it
open, and it may be another each time; a negative length is one of 0. -/
structure Platform where
  command : Word
  blank : Word
  heap : MappedHeap
  stack : Printk.Stack
  stale : Disks.Listing → PciDeviceList
  config : Pci.Config
  hw : Acpi.Hardware
  getTimeInSeconds : Word
  answer : Calls → List Byte → Bool
  fuel : ℕ
  command_ne_null : command ≠ 0
  command_fits : command.toNat + commandSize ≤ 2 ^ 32
  apart : ∀ x, Within blank 2 x → ¬ Within command commandSize x
  loaded : 0x200000 ≤ blank.toNat
  constants_first : blank.toNat + 2 ≤ heap.base.toNat

/-- The variables of the prompt and of what it calls.  `messages` has what the PCI driver prints,
`listing` the memory; `acpi` prints into its own log. -/
structure Console where
  kernel : Kernel
  args : Args
  savedToken : Word
  listing : Disks.Listing
  messages : List Pci.Message
  acpi : Acpi.State

/-- What is typed in a round: the keys up to Enter, what `terminal_input` finds behind a layout, and
the keys the editor reads if it is opened. -/
structure Entry where
  line : List Byte
  beyond : Byte → Byte
  edits : List KeyPress

namespace Console

variable (w : Platform)

/-- Memory. -/
def mem (s : Console) : Mem := s.listing.mem

/-- `terminal_writestring`, and `printk` of a text without conversions. -/
def write (text : List Byte) (s : Console) : Console := { s with kernel := s.kernel.write text }

/-- `command`, and `*shift`, which is the byte at address 0. -/
def commandLine (s : Console) : CommandLine :=
  ⟨s.mem.load w.command commandSize, 0, s.mem 0 ≠ 0, [], length_load _ _⟩

/-- Memory and screen, once a line has been read. -/
def keep (c : CommandLine) (s : Console) : Console :=
  { s with
    kernel := { s.kernel with screen := s.kernel.screen ++ c.screen }
    listing := { s.listing with
      mem := (s.mem.store w.command c.buffer).store 0 [if c.shift then 1 else 0] } }

/-- `while (!terminal_input(command, &buffer_index, shift));` -/
def input (e : Entry) (s : Console) : Option Console :=
  (readLine s.kernel.currentLayout e.beyond e.line (s.commandLine w).start).map fun c => s.keep w c

/-- `args`, `saved_token` and memory, once the line has been cut. -/
def split (args : Args) (t : Strtok) (s : Console) : Console :=
  { s with
    args
    savedToken := t.saved_token
    listing := { s.listing with mem := t.mem } }

/-- `args[i]`, as a string. -/
def arg (i : ℕ) (s : Console) : Option (List Byte) := s.mem.cstr? (s.args.entries.getD i 0)

/-- What a call of the ACPI driver returns, if it does, and the driver's state then. -/
def returned {α : Type} (f : Acpi.Driver α) (s : Acpi.State) : Option (α × Acpi.State) :=
  match f s with
  | .ok a t => some (a, t)
  | .error _ _ => none

/-- `reboot` and `shutdown`: there is no return if the ACPI driver sleeps for ever. -/
def powerOff (failed : List Byte) (s : Console) : Option Console := do
  let (r, acpi) ← returned (Acpi.initAcpi s.mem) s.acpi
  if r = 0 then
    let ((), acpi) ← returned (Acpi.acpiPowerOff w.hw w.getTimeInSeconds) acpi
    return { s with acpi }.write (str "ACPI initialization successfully.\n")
  else return { s with acpi }.write failed

/-- `*ahci_devices`. -/
def ahciDevices (val : ℕ) (l : Disks.Listing) : PciDeviceList :=
  (l.frames.read val).getD (w.stale l)

/-- `for (int i = 0; i < ahci_devices->length; ++i)`, from `i` on: the id of the first device is
printed as a format.  The list is read anew in every round. -/
def printLoop (val : ℕ) : ℕ → ℕ → Disks.Listing → Option Disks.Listing
  | 0, _, _ => none
  | n + 1, i, l =>
      let list := ahciDevices w val l
      if i < list.length then
        printLoop val n (i + 1) (l.printk (l.mem.pciDevice list.pciDevice).deviceId.toNat)
      else some l

/-- The list of AHCI devices, and what is printed of it. -/
def printAhciDevices (list : PciDeviceList) (l : Disks.Listing) : Option Disks.Listing :=
  let (val, l) := Disks.getAhciDevices w.heap.toHeapArray w.config list l
  printLoop w val w.fuel 0 l

/-- Memory and heap, once the PCI driver has made its list. -/
def afterScan (heapIndex : Word) (mem : Mem) (l : Disks.Listing) : Disks.Listing :=
  { l with mem, maps := { l.maps with heapIndex } }

/-- `lsdisks`: there is no return if the enumeration has no end, or what is read as the length of
the list always goes on. -/
def lsdisks (s : Console) : Option Console := do
  let (list, heapIndex, scan) ← Pci.enumerateDevices w.heap.toHeapArray w.config w.fuel s.mem
    s.listing.maps.heapIndex
  let s := { s with messages := s.messages ++ scan.printed }.write
    (str "Gotten disk list, checking type.\n")
  return { s with
    listing := ← printAhciDevices w list (afterScan heapIndex scan.mem s.listing) }

/-- What is done with `arg_count` arguments, and whether the prompt is left. -/
def perform (e : Entry) (argCount : ℕ) (s : Console) : Option (Bool × Console) := do
  match commandOf (← s.arg 0) with
  | .help => return (false, s.write helpText)
  | .cl =>
      if argCount > 1 then return (false, { s with kernel := s.kernel.cl [← s.arg 1] })
      else return (false, { s with kernel := s.kernel.cl [] })
  | .getkey =>
      if argCount > 1 then
        let text ← Printk.printk s.mem w.stack (s.args.entries.getD 1 0)
        return (false, s.write text)
      else return (false, s.write (str "Usage: getkey <key>\n"))
  | .edit => return (false, { s with kernel := ← s.kernel.edit w.answer e.edits })
  | .run => return (false, { s with kernel := ← s.kernel.run w.answer })
  | .reboot =>
      return (true, ← s.powerOff w (str "ACPI initialization failed. Unable to reboot.\n"))
  | .lsdisks => return (false, ← s.lsdisks w)
  | .shutdown =>
      return (true, ← s.powerOff w (str "ACPI initialization failed. Unable to shutdown.\n"))
  | .unknown =>
      let command ← s.mem.cstr? w.command
      return (false, s.write (str "Unknown command: '" ++ command ++
        str "'. Type 'help' for a list of commands.\n"))

/-- The line is read and cut: `arg_count`, and the arguments in `args`. -/
def hear (e : Entry) (s : Console) : Option (ℕ × Console) := do
  let s ← (s.write (str "\n>>> ")).input w e
  match splitCommand ⟨s.mem, s.savedToken⟩ w.command w.blank s.args with
  | .error _ => none
  | .ok (argCount, args, t) => some (argCount, s.split args t)

/-- A round of the prompt, and whether it is the last. -/
def round (e : Entry) (s : Console) : Option (Bool × Console) := do
  let (argCount, s) ← s.hear w e
  if argCount = 0 then return (false, s) else s.perform w e argCount

end Console

/-! ## A line, read and cut -/

/-- The words of a line. -/
def wordsOf (text : List Byte) : List (List Byte) :=
  (words text).map fun r => text.extract r.1 r.2

/-- A line as it is typed on a PS/2 keyboard, and the keys the editor reads if it is opened. -/
structure Typing where
  line : TypedLine commandSize
  beyond : Byte → Byte
  edits : List KeyPress

/-- Enter ends the line. -/
def Typing.entry (y : Typing) : Entry := ⟨y.line.keys ++ [4], y.beyond, y.edits⟩

/-- The text typed, in a layout and with `*shift` as it is. -/
def Typing.text (y : Typing) (layout : KeyboardLayout) (shift : Bool) : List Byte :=
  y.line.text layout y.beyond shift

section Cut
variable {m : Mem} {command d : Word} {text : List Byte}

theorem run_of_mem_words {r : ℕ × ℕ} (hr : r ∈ words text) :
    Run (isWord (str " ")) text r.1 r.2 :=
  ((Run.mem_runs_iff fun m hm => absurd hm m.succ_ne_zero).mp hr).2

/-- What is left of the line itself ends behind its first word. -/
theorem cstr?_cut_words (h : Tokens m command d text (str " ")) {r : ℕ × ℕ}
    (hr : (words text).head? = some r) :
    (cut m command text.length (words text)).cstr? command = some (text.take r.2) := by
  obtain ⟨rest, hrest⟩ := List.head?_eq_some_iff.mp hr
  have hmem : r ∈ words text := hrest ▸ List.mem_cons_self
  have hpairs : (words text).Pairwise fun r r' => r.2 < r'.1 :=
    Run.pairwise_runs fun m hm => absurd hm m.succ_ne_zero
  rw [hrest] at hpairs
  have hle := (run_of_mem_words hmem).le_length
  have hlen : (text.take r.2).length = r.2 := by rw [List.length_take, min_eq_left hle]
  obtain ⟨h0, hspan, hholds⟩ := cstr?_eq_some.mp h.holds_text
  have hcut {n : ℕ} (hn : n ≤ r.2) : (∃ r' ∈ words text, r'.2 < text.length ∧ r'.2 = n) ↔
      n = r.2 ∧ r.2 < text.length := by
    constructor
    · rintro ⟨r', hr', hlt, rfl⟩
      rcases List.mem_cons.mp (hrest ▸ hr') with rfl | hin
      · exact ⟨rfl, hlt⟩
      · have hafter := (List.pairwise_cons.mp hpairs).1 r' hin
        have hpos := (run_of_mem_words hr').lt
        omega
    · rintro ⟨rfl, hlt⟩
      exact ⟨r, hmem, hlt, rfl⟩
  have hbyte {n : ℕ} (hn : n ≤ text.length) :
      m (command + BitVec.ofNat 32 n) = text.getD n 0 := by
    have hat : At ⟨m, 0⟩ command command d text (str " ") 0 := h.at_zero rfl
    exact holds_apply hat.holds_text (Nat.zero_le n) hn
  refine cstr?_eq_some.mpr ⟨fun hin => h0 (List.take_subset _ _ hin), by omega,
    holds_append.mpr ⟨?_, ?_⟩⟩
  · rw [← List.take_append_drop r.2 text, List.append_assoc] at hholds
    refine hholds.left.congr fun n hn => ?_
    rw [hlen] at hn
    rw [cut_add h.fits (by omega), if_neg]
    intro hex
    have := ((hcut hn.le).mp hex).1
    omega
  · rw [hlen]
    refine holds_cons.mpr ⟨?_, rfl⟩
    rw [cut_add h.fits hle]
    rcases Nat.eq_or_lt_of_le hle with hend | hend
    · rw [hbyte hle, hend, List.getD_eq_default _ _ le_rfl, ite_self]
    · rw [if_pos ((hcut le_rfl).mpr ⟨rfl, hend⟩)]

end Cut

theorem Platform.not_within_null (w : Platform) : ¬ Within w.command commandSize 0 := by
  have hne := w.command_ne_null
  have hfits := w.command_fits
  simp only [Within, commandSize] at *
  bv_omega

theorem Platform.blank_ne_null (w : Platform) {x : Word} (hx : Within w.blank 2 x) : x ≠ 0 := by
  have hloaded := w.loaded
  have hfits := w.heap.fits
  have hfirst := w.constants_first
  simp only [Within] at *
  bv_omega

namespace Console

variable {w : Platform} {s t : Console} {y : Typing} {x : Word} {text : List Byte}

/-- The blank is where it was, and the heap is as the mapping functions keep it. -/
structure Ready (w : Platform) (s : Console) : Prop where
  blank : s.mem.cstr? w.blank = some (str " ")
  bounds : Disks.Fits 0 s.listing.maps

/-- What is typed into `s`. -/
def typed (y : Typing) (s : Console) : List Byte := y.text s.kernel.currentLayout (s.mem 0 ≠ 0)

/-- `t` is `s` once `text` has been read and cut. -/
structure Heard (w : Platform) (text : List Byte) (s t : Console) : Prop where
  kernel : ∃ echo, t.kernel = { s.kernel with screen := s.kernel.screen ++ echo }
  arg : ∀ {i word}, (wordsOf text)[i]? = some word → t.arg i = some word
  command : ∀ {r}, (words text).head? = some r → t.mem.cstr? w.command = some (text.take r.2)
  same : t.listing = { s.listing with mem := t.mem } ∧ t.messages = s.messages ∧ t.acpi = s.acpi
  frame : ∀ x, x ≠ 0 → ¬ Within w.command commandSize x → t.mem x = s.mem x

theorem Heard.maps (h : Heard w text s t) : t.listing.maps = s.listing.maps :=
  congrArg (·.maps) h.same.1

/-- The line, where `split_command` finds it. -/
theorem loaded_input (hs : s.mem.cstr? w.blank = some (str " ")) {buffer : List Byte} (b : Byte)
    (hsize : buffer.length = commandSize) :
    Loaded ((s.mem.store w.command buffer).store 0 [b]) w.command w.blank buffer := by
  have hle : buffer.length ≤ span := by
    rw [hsize]
    decide
  have hflag : ∀ {x}, x ≠ 0 → ((s.mem.store w.command buffer).store 0 [b]) x =
      s.mem.store w.command buffer x := by
    intro x hx
    refine store_of_not_within (by simp [span]) fun hin => hx ?_
    simp only [Within, List.length_singleton] at hin
    bv_omega
  refine ⟨w.command_ne_null, w.command_fits, ?_, ?_, w.apart⟩
  · refine (holds_store s.mem w.command hle).congr fun k hk => hflag fun h0 => ?_
    exact w.not_within_null (h0 ▸ Within.add (hsize ▸ hk))
  · refine cstr?_congr hs fun x hx => ?_
    rw [hflag (w.blank_ne_null hx), store_of_not_within hle (hsize ▸ w.apart x hx)]

@[simp] theorem mem_write : (s.write text).mem = s.mem := rfl

@[simp] theorem typed_write : (s.write text).typed y = s.typed y := rfl

@[simp] theorem mem_keep (c : CommandLine) : (s.keep w c).mem =
    (s.mem.store w.command c.buffer).store 0 [if c.shift then 1 else 0] := rfl

/-- The line that has been typed is where `split_command` finds it. -/
theorem input_typed (hs : s.mem.cstr? w.blank = some (str " ")) (y : Typing) : ∃ c,
    s.input w y.entry = some (s.keep w c) ∧
      Tokens (s.keep w c).mem w.command w.blank (s.typed y) (str " ") ∧
      (s.typed y).length < commandSize ∧
      ∀ x, x ≠ 0 → ¬ Within w.command commandSize x → (s.keep w c).mem x = s.mem x := by
  obtain ⟨c, hread, -, htext⟩ := readLine_typed s.kernel.currentLayout y.beyond y.line
    (s.commandLine w) []
  have hload := loaded_input hs (if c.shift then 1 else 0) c.size
  have htokens := hload.tokens c.size (zero_mem_of_readLine hread)
  have hlen : (cstr c.buffer).length < commandSize := by
    obtain ⟨rest, hsplit⟩ := eq_cstr_append (zero_mem_of_readLine hread)
    rw [← c.size, congrArg List.length hsplit, List.length_append, List.length_cons]
    omega
  rw [show cstr c.buffer = s.typed y from htext] at htokens hlen
  refine ⟨c, congrArg (Option.map fun c => s.keep w c) hread, htokens, hlen, fun x hx hin => ?_⟩
  have hone : ¬ Within 0 [if c.shift then (1 : Byte) else 0].length x := by
    simp only [Within, List.length_singleton]
    bv_omega
  have hle : c.buffer.length ≤ span := by
    rw [c.size]
    decide
  rw [mem_keep, store_of_not_within (by simp [span]) hone, store_of_not_within hle (c.size ▸ hin)]

/-- **What a round hears**: with at most ten words in it, what has been typed. -/
theorem exists_heard (hs : s.mem.cstr? w.blank = some (str " ")) (y : Typing)
    (hfew : (wordsOf (s.typed y)).length ≤ argsSize) : ∃ t, Heard w (s.typed y) s t ∧
      s.hear w y.entry = some ((wordsOf (s.typed y)).length, t) := by
  obtain ⟨c, hinput, htokens, hlen, hframe⟩ := (s.write (str "\n>>> ")).input_typed hs y
  rw [typed_write] at htokens hlen
  obtain ⟨u, hmem, hsplit⟩ := splitCommand_words
    (t := ⟨((s.write (str "\n>>> ")).keep w c).mem, s.savedToken⟩) htokens s.args
  generalize hheard : (s.write (str "\n>>> ")).keep w c = k at *
  have hkernel : k.kernel = { s.kernel with
      screen := s.kernel.screen ++ terminalWritestring (str "\n>>> ") ++ c.screen } := by
    rw [← hheard]
    rfl
  have hsame : k.args = s.args ∧ k.savedToken = s.savedToken := by
    rw [← hheard]
    exact ⟨rfl, rfl⟩
  have hrest : k.listing = { s.listing with mem := k.mem } ∧ k.messages = s.messages ∧
      k.acpi = s.acpi := by
    rw [← hheard]
    exact ⟨rfl, rfl, rfl⟩
  have hlength : (wordsOf (s.typed y)).length = (words (s.typed y)).length := List.length_map _
  rw [hlength] at hfew ⊢
  obtain ⟨args, hstore⟩ : ∃ args, s.args.storeAll 0
      ((words (s.typed y)).map fun r => w.command + BitVec.ofNat 32 r.1) = some args :=
    Option.isSome_iff_exists.mp ((Args.isSome_storeAll (Nat.zero_le _)).mpr
      (by rwa [Nat.zero_add, List.length_map]))
  simp only [hstore] at hsplit
  have hecho := hkernel.trans (by rw [List.append_assoc])
  refine ⟨k.split args u, ⟨⟨_, hecho⟩, ?_, ?_, ⟨?_, hrest.2⟩, ?_⟩, ?_⟩
  · intro i word hword
    rw [wordsOf, List.getElem?_map, Option.map_eq_some_iff] at hword
    obtain ⟨r, hr, rfl⟩ := hword
    have hentries := Args.entries_storeAll hstore (Nat.zero_le _)
    have hentry : args.entries.getD i 0 = w.command + BitVec.ofNat 32 r.1 := by
      have hlt : i < (words (s.typed y)).length := (List.getElem?_eq_some_iff.mp hr).1
      rw [hentries, List.take_zero, List.nil_append, List.getD_eq_getElem?_getD,
        List.getElem?_append_left (by rwa [List.length_map]), List.getElem?_map, hr]
      rfl
    change u.mem.cstr? (args.entries.getD i 0) = _
    rw [hentry, hmem]
    exact htokens.cstr?_cut (fun r hr => run_of_mem_words hr) (List.mem_of_getElem? hr)
  · intro r hr
    change u.mem.cstr? w.command = _
    rw [hmem]
    exact cstr?_cut_words htokens hr
  · rw [split, hrest.1]
    rfl
  · intro x hx hin
    change u.mem x = _
    rw [hmem, cut_of_not_within fun h => hin (h.mono hlen)]
    exact hframe x hx hin
  · rw [hear, hinput, Option.bind_eq_bind, Option.bind_some, hsame.1, hsame.2, hsplit]

/-- A round does what its first word names, if a word is heard. -/
theorem round_of_hear {e : Entry} {n : ℕ} (h : s.hear w e = some (n, t)) :
    s.round w e = if n = 0 then some (false, t) else t.perform w e n := by
  rw [round, h]
  rfl

end Console

/-! ## A line of words -/

/-- A line of words, a blank between each and the next. -/
def lineOf : List (List Byte) → List Byte
  | [] => []
  | [word] => word
  | word :: ws => word ++ chr ' ' :: lineOf ws

section Words

variable {word text : List Byte} {ws : List (List Byte)} {j : ℕ}

theorem wordsOf_nil : wordsOf [] = [] := by
  rw [wordsOf, words, Run.runs_of_length_le (Nat.le_refl 0), List.map_nil]

/-- A word at the front is a run, if nothing of it follows. -/
theorem run_word (h : IsWord word) (hend : ∀ b, text.head? = some b → b = chr ' ') :
    Run (isWord (str " ")) (word ++ text) 0 word.length := by
  refine ⟨List.length_pos_iff.mpr h.1, fun m _ hm => ?_, fun m hm => absurd hm m.succ_ne_zero,
    fun b hb => ?_⟩
  · refine ⟨word[m], by rw [List.getElem?_append_left hm, List.getElem?_eq_getElem hm], ?_⟩
    rw [isWord_iff]
    intro hmem
    have hblank : word[m] = chr ' ' := List.mem_singleton.mp hmem
    exact h.2 (hblank ▸ List.getElem_mem hm)
  · rw [List.getElem?_append_right le_rfl, Nat.sub_self, ← List.head?_eq_getElem?] at hb
    rw [hend b hb]
    decide +kernel

/-- A word alone. -/
theorem wordsOf_word (h : IsWord word) : wordsOf word = [word] := by
  have hrun : Run (isWord (str " ")) (word ++ []) 0 word.length :=
    run_word h fun b hb => by cases hb
  rw [List.append_nil] at hrun
  rw [wordsOf, words, Run.runs_of_run hrun, Run.runs_of_length_le (Nat.le_succ _)]
  simp

/-- A word, and what follows behind a blank. -/
theorem wordsOf_append (h : IsWord word) :
    wordsOf (word ++ chr ' ' :: text) = word :: wordsOf text := by
  have hrun : Run (isWord (str " ")) (word ++ chr ' ' :: text) 0 word.length :=
    run_word h fun b hb => (Option.some.inj hb).symm
  have hrest := Run.runs_append (p := isWord (str " ")) (word ++ [chr ' ']) text 0
  rw [List.append_assoc, List.length_append, List.length_singleton, Nat.add_zero,
    List.singleton_append] at hrest
  have hextract (r : ℕ × ℕ) : (word ++ chr ' ' :: text).extract (word.length + 1 + r.1)
      (word.length + 1 + r.2) = text.extract r.1 r.2 := by
    have hbehind : (word ++ chr ' ' :: text).drop (word.length + 1) = text := by simp
    rw [List.extract_eq_take_drop, ← List.drop_drop, hbehind, Nat.add_sub_add_left,
      ← List.extract_eq_take_drop]
  rw [wordsOf, words, Run.runs_of_run hrun, hrest, List.map_cons, List.map_map]
  congr 1
  · simp
  · exact List.map_congr_left fun r _ => hextract r

/-- **The words of a line are those it was made of.** -/
theorem wordsOf_lineOf (h : ∀ word ∈ ws, IsWord word) : wordsOf (lineOf ws) = ws := by
  induction ws with
  | nil => exact wordsOf_nil
  | cons word ws ih =>
    obtain ⟨hword, hrest⟩ := List.forall_mem_cons.mp h
    cases ws with
    | nil => exact wordsOf_word hword
    | cons word' ws =>
      rw [lineOf, wordsOf_append hword, ih hrest]
      exact List.cons_ne_nil _ _

end Words

/-! ## A prompt -/

theorem blank_apart (x : Word) (hx : Within 0x200000 2 x) : ¬ Within 0x201000 commandSize x := by
  intro hin
  simp only [Within, commandSize] at *
  bv_omega

/-- A platform without devices; the pointer to a list that is gone is NULL there. -/
def Platform.sample : Platform where
  command := 0x201000
  blank := 0x200000
  heap := ⟨⟨0x300000, by decide, by decide⟩, by decide⟩
  stack := ⟨fun _ => 0, fun _ => 0, fun _ => 0⟩
  stale := fun l => ⟨l.mem.word 0, (l.mem.word 4).toInt.toNat⟩
  config := fun _ => 0xFFFFFFFF
  hw := ⟨fun _ _ => 0, fun _ => 0⟩
  getTimeInSeconds := 0
  answer := fun _ _ => true
  fuel := 0
  command_ne_null := by decide
  command_fits := by decide
  apart := blank_apart
  loaded := by decide
  constants_first := by decide

/-- Memory with `" "` in it. -/
def blankMem : Mem := Mem.store (fun _ => 0) 0x200000 (str " " ++ [0])

/-- The first prompt on it. -/
def firstPrompt : Console where
  kernel := .boot
  args := noArgs
  savedToken := 0
  listing := ⟨blankMem, .boot, .empty, [], [], []⟩
  messages := []
  acpi := ⟨⟨0, 0, 0, 0, 0, 0, 0, 0, 0, 0⟩, []⟩

theorem ready_firstPrompt : Console.Ready .sample firstPrompt := by
  have hblank : blankMem.cstr? 0x200000 = some (str " ") :=
    cstr?_store _ _ (by decide +kernel) (by decide)
  have hbounds : Disks.Fits 0 Mappings.boot := by decide
  exact ⟨hblank, hbounds⟩

end HuskyKernel
