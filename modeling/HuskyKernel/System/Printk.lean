import HuskyKernel.System.Compare
import HuskyKernel.System.Itoa

/-!
# System/Printk — a format, its arguments, and a buffer of 256 bytes

`printk` expands its format into an array on the stack and hands that to `terminal_writeline`.  Its
arguments are the words that follow on the stack, whoever put them there.  `Expands` says what a
format and its arguments should become.  `printk_expands`: up to 255 characters that is what is
sent; `inside_iff`: a format fits as long as it takes up to 255 bytes with its arguments (`room`).
-/

namespace HuskyKernel

/-- The size of `buffer`. -/
def bufferSize : ℕ := 256

/-- The characters from offset `i` on, up to the first NUL, within `n` steps. -/
def Chars.line (b : Chars) : ℕ → ℕ → Option (List Byte)
  | 0, _ => none
  | n + 1, i => if b.bytes i = 0 then some [] else (b.line n (i + 1)).map (b.bytes i :: ·)

namespace Printk

/-- What a call finds on its stack: whatever its arrays hold, and the words of `va_arg`. -/
structure Stack where
  buffer : ℕ → Byte
  numBuffer : ℕ → Byte
  args : ℕ → Word

/-- How far the loop is: `buffer`, `buf_ptr`, and the number of arguments taken. -/
structure Output where
  buffer : Chars
  bufPtr : ℕ
  args : ℕ

/-- `*buf_ptr++ = c`. -/
def Output.emit (o : Output) (c : Byte) : Output :=
  { o with buffer := o.buffer.put o.bufPtr c, bufPtr := o.bufPtr + 1 }

/-- `while (*src) *buf_ptr++ = *src++;` in at most `n` rounds. -/
def copy (src : ℕ → Byte) : ℕ → ℕ → Output → Option Output
  | 0, _, _ => none
  | n + 1, i, o => if src i = 0 then some o else copy src n (i + 1) (o.emit (src i))

variable (m : Mem) (k : Stack)

/-- What is done for a `'%'` with a character `c` behind it. -/
def convert (c : Byte) (o : Output) : Option Output :=
  if c = chr 'd' then do
    let numBuffer ← Chars.itoa (k.args o.args) 10 (.fresh k.numBuffer)
    copy numBuffer.bytes Mem.span 0 { o with args := o.args + 1 }
  else if c = chr 's' then
    copy (fun i => m (k.args o.args + BitVec.ofNat 32 i)) Mem.span 0 { o with args := o.args + 1 }
  else some ((o.emit (chr '%')).emit c)

/-- `while (*format)`, in at most `n` rounds. -/
def formatLoop : ℕ → Word → Output → Option Output
  | 0, _, _ => none
  | n + 1, format, o =>
      if m format = 0 then some o
      else if m format = chr '%' ∧ m (format + 1) ≠ 0 then do
        formatLoop n (format + 1 + 1) (← convert m k (m (format + 1)) o)
      else formatLoop n (format + 1) (o.emit (m format))

/-- `buffer`, as it is handed to `terminal_writeline`. -/
def expand (format : Word) : Option Chars := do
  let o ← formatLoop m k Mem.span format { buffer := .fresh k.buffer, bufPtr := 0, args := 0 }
  return o.buffer.put o.bufPtr 0

/-- `printk`: the characters `terminal_writeline` is sent. -/
def printk (format : Word) : Option (List Byte) := do
  (← expand m k format).line Mem.span 0

/-! ## What a format should become -/

/-- The expansion of a format with the arguments it takes, from left to right: one for each `%d` and
each `%s`. -/
inductive Expands (m : Mem) : List Byte → List Word → List Byte → Prop
  | nil : Expands m [] [] []
  | int {format args text} (value : Word) : Expands m format args text →
      Expands m (chr '%' :: chr 'd' :: format) (value :: args) (itoa value 10 ++ text)
  | str {format args text} {p : Word} {s : List Byte} : m.cstr? p = some s →
      Expands m format args text → Expands m (chr '%' :: chr 's' :: format) (p :: args) (s ++ text)
  | other {format args text} {c : Byte} : c ≠ chr 'd' → c ≠ chr 's' → Expands m format args text →
      Expands m (chr '%' :: c :: format) args (chr '%' :: c :: text)
  | lone : Expands m [chr '%'] [] [chr '%']
  | char {format args text} {c : Byte} : c ≠ chr '%' → Expands m format args text →
      Expands m (c :: format) args (c :: text)

/-! ## The loops -/

variable {m : Mem} {k : Stack} {o : Output} {b b' : Chars} {src : ℕ → Byte}
variable {format : Word} {fmt text text' : List Byte} {args : List Word} {i j n : ℕ}

/-- What `text` has been appended to, with `j` more arguments taken. -/
def Output.after (o : Output) (text : List Byte) (j : ℕ) : Output :=
  ⟨o.buffer.puts o.bufPtr text, o.bufPtr + text.length, o.args + j⟩

theorem Output.after_after :
    (o.after text i).after text' j = o.after (text ++ text') (i + j) := by
  rw [after, after, after, Chars.puts_append, List.length_append, Nat.add_assoc, Nat.add_assoc]

theorem Output.emit_eq (c : Byte) : o.emit c = o.after [c] 0 := rfl

/-- A text and its NUL lie at offset `i`. -/
def Lies (src : ℕ → Byte) : ℕ → List Byte → Prop
  | i, [] => src i = 0
  | i, c :: cs => src i = c ∧ c ≠ 0 ∧ Lies src (i + 1) cs

theorem lies_of_getD (h0 : 0 ∉ text) (h : ∀ j < text.length, src (i + j) = text.getD j 0)
    (hnul : src (i + text.length) = 0) : Lies src i text := by
  induction text generalizing i with
  | nil => exact hnul
  | cons c text ih =>
    refine ⟨h 0 (Nat.succ_pos _), fun hc => h0 (hc ▸ List.mem_cons_self), ?_⟩
    refine ih (fun hmem => h0 (List.mem_cons_of_mem _ hmem)) (fun j hj => ?_) ?_
    · rw [Nat.add_right_comm]
      exact h (j + 1) (Nat.succ_lt_succ hj)
    · rwa [List.length_cons, ← Nat.add_assoc, Nat.add_right_comm] at hnul

/-- **Copying a text** appends it. -/
theorem copy_eq (h : Lies src i text) (hn : text.length < n) :
    copy src n i o = some (o.after text 0) := by
  induction n generalizing i text o with
  | zero => exact absurd hn (Nat.not_lt_zero _)
  | succ n ih =>
    rw [copy]
    cases text with
    | nil => exact if_pos h
    | cons c text =>
      obtain ⟨hc, hne, hrest⟩ := h
      rw [if_neg (hc ▸ hne), hc, ih hrest (Nat.lt_of_succ_lt_succ hn), Output.emit_eq,
        Output.after_after]
      rfl

theorem line_eq (h : Lies b.bytes i text) (hn : text.length < n) : b.line n i = some text := by
  induction n generalizing i text with
  | zero => exact absurd hn (Nat.not_lt_zero _)
  | succ n ih =>
    rw [Chars.line]
    cases text with
    | nil => exact if_pos h
    | cons c text =>
      obtain ⟨hc, hne, hrest⟩ := h
      rw [if_neg (hc ▸ hne), ih hrest (Nat.lt_of_succ_lt_succ hn), hc, Option.map_some]

/-- A string in memory, seen through a pointer. -/
theorem lies_of_cstr? {p : Word} (h : m.cstr? p = some text) :
    Lies (fun i => m (p + BitVec.ofNat 32 i)) 0 text := by
  obtain ⟨h0, -, hholds⟩ := Mem.cstr?_eq_some.mp h
  have hbyte : ∀ i < (text ++ [0]).length,
      m (p + BitVec.ofNat 32 i) = (text ++ [0]).getD i 0 := fun i hi => by
    rw [← Mem.getD_load (m := m) p hi, show m.load p _ = _ from hholds]
  rw [List.length_append, List.length_singleton] at hbyte
  refine lies_of_getD h0 (fun i hi => ?_) ?_
  · rw [Nat.zero_add, hbyte i (by omega), List.getD_append _ _ _ _ hi]
  · rw [Nat.zero_add, hbyte _ (by omega), List.getD_append_right _ _ _ _ le_rfl, Nat.sub_self]
    rfl

/-- **The three conversions**. -/
theorem convert_int (value : Word) (h : k.args o.args = value) :
    convert m k (chr 'd') o = some (o.after (itoa value 10) 1) := by
  obtain ⟨hlen, h0⟩ := itoa_ten_fits value
  obtain ⟨s, hs, hwritten⟩ := Chars.itoa_eq_ten value (.fresh k.numBuffer)
  have hlies : Lies s.bytes 0 (itoa value 10) := by
    refine lies_of_getD h0 (fun j hj => ?_) ?_
    · rw [Nat.zero_add, hwritten.chars j hj]
    · rw [Nat.zero_add, hwritten.nul]
  have hspan : (itoa value 10).length < Mem.span := hlen.trans_lt (by decide)
  rw [convert, if_pos rfl, h, hs, Option.bind_eq_bind, Option.bind_some, copy_eq hlies hspan]
  rfl

theorem convert_str {s : List Byte} (h : m.cstr? (k.args o.args) = some s) :
    convert m k (chr 's') o = some (o.after s 1) := by
  have hspan := (Mem.cstr?_eq_some.mp h).2.1
  rw [convert, if_neg (by decide), if_pos rfl, copy_eq (lies_of_cstr? h) hspan]
  rfl

theorem convert_other {c : Byte} (hd : c ≠ chr 'd') (hs : c ≠ chr 's') :
    convert m k c o = some (o.after [chr '%', c] 0) := by
  rw [convert, if_neg hd, if_neg hs, Output.emit_eq, Output.emit_eq, Output.after_after]
  rfl

theorem cstrN_mono (h : m.cstrN format i = some fmt) (hij : i ≤ j) :
    m.cstrN format j = some fmt := by
  obtain ⟨h0, hlen, hholds⟩ := Mem.cstrN_eq_some.mp h
  exact Mem.cstrN_eq_some.mpr ⟨h0, hlen.trans_le hij, hholds⟩

/-- A format, taken apart at its first character. -/
theorem cstrN_cons {c : Byte} (h : m.cstrN format n = some (c :: fmt)) :
    m format = c ∧ c ≠ 0 ∧ ∃ n', n = n' + 1 ∧ m.cstrN (format + 1) n' = some fmt := by
  obtain ⟨h0, hlen, hholds⟩ := Mem.cstrN_eq_some.mp h
  obtain ⟨hc, hrest⟩ := Mem.holds_cons.mp hholds
  obtain ⟨n, rfl⟩ := Nat.exists_eq_succ_of_ne_zero (Nat.ne_zero_of_lt hlen)
  exact ⟨hc, fun hz => h0 (hz ▸ List.mem_cons_self), n, rfl, Mem.cstrN_eq_some.mpr
    ⟨fun hmem => h0 (List.mem_cons_of_mem _ hmem), Nat.lt_of_succ_lt_succ hlen, hrest⟩⟩

theorem cstrN_nil (h : m.cstrN format n = some []) : m format = 0 ∧ ∃ n', n = n' + 1 := by
  obtain ⟨-, hlen, hholds⟩ := Mem.cstrN_eq_some.mp h
  exact ⟨(Mem.holds_cons.mp hholds).1, Nat.exists_eq_succ_of_ne_zero (Nat.ne_zero_of_lt hlen)⟩

/-- One round on a conversion. -/
theorem formatLoop_convert {c : Byte} {o' : Output}
    (h : m.cstrN format n = some (chr '%' :: c :: fmt)) (hc : convert m k c o = some o') :
    ∃ n', m.cstrN (format + 1 + 1) n' = some fmt ∧
      formatLoop m k n format o = formatLoop m k n' (format + 1 + 1) o' := by
  obtain ⟨hpercent, -, n, rfl, hrest⟩ := cstrN_cons h
  obtain ⟨hchar, hne, n', rfl, hfmt⟩ := cstrN_cons hrest
  refine ⟨n' + 1, cstrN_mono hfmt (Nat.le_succ _), ?_⟩
  rw [formatLoop, hpercent, if_neg (by decide), if_pos ⟨rfl, hchar.symm ▸ hne⟩, hchar, hc,
    Option.bind_eq_bind, Option.bind_some]

/-- One round on any other character. -/
theorem formatLoop_emit {c : Byte} (h : m.cstrN format n = some (c :: fmt))
    (hc : c = chr '%' → fmt = []) : ∃ n', m.cstrN (format + 1) n' = some fmt ∧
      formatLoop m k n format o = formatLoop m k n' (format + 1) (o.after [c] 0) := by
  obtain ⟨hchar, hne, n, rfl, hrest⟩ := cstrN_cons h
  have hnot : ¬ (c = chr '%' ∧ m (format + 1) ≠ 0) := by
    rintro ⟨heq, hnext⟩
    rw [hc heq] at hrest
    exact hnext (cstrN_nil hrest).1
  refine ⟨n, hrest, ?_⟩
  rw [formatLoop, hchar, if_neg hne, if_neg hnot, Output.emit_eq]

/-- **The loop appends the expansion**, and takes the arguments it is made of — induction on the
expansion, a case for each way a round can go. -/
theorem formatLoop_eq (hexp : Expands m fmt args text) (hfmt : m.cstrN format n = some fmt)
    (hargs : ∀ i < args.length, k.args (o.args + i) = args.getD i 0) :
    formatLoop m k n format o = some (o.after text args.length) := by
  have hnext : ∀ {v : Word} {args : List Word} {o : Output} {s : List Byte},
      (∀ i < (v :: args).length, k.args (o.args + i) = (v :: args).getD i 0) →
        k.args o.args = v ∧ ∀ i < args.length, k.args ((o.after s 1).args + i) = args.getD i 0 := by
    intro v args o s h
    refine ⟨h 0 (Nat.succ_pos _), fun i hi => ?_⟩
    have hi' := h (i + 1) (Nat.succ_lt_succ hi)
    rwa [List.getD_cons_succ, ← Nat.add_assoc, Nat.add_right_comm] at hi'
  induction hexp generalizing format n o with
  | nil =>
    obtain ⟨hzero, n, rfl⟩ := cstrN_nil hfmt
    rw [formatLoop, if_pos hzero]
    rfl
  | int value hexp ih =>
    obtain ⟨hvalue, hrest⟩ := hnext hargs
    obtain ⟨n', hfmt', hloop⟩ := formatLoop_convert hfmt (convert_int value hvalue)
    rw [hloop, ih hfmt' hrest, Output.after_after, List.length_cons, Nat.add_comm 1]
  | str hs hexp ih =>
    obtain ⟨hp, hrest⟩ := hnext hargs
    obtain ⟨n', hfmt', hloop⟩ := formatLoop_convert hfmt (convert_str (hp.symm ▸ hs))
    rw [hloop, ih hfmt' hrest, Output.after_after, List.length_cons, Nat.add_comm 1]
  | other hd hs hexp ih =>
    obtain ⟨n', hfmt', hloop⟩ := formatLoop_convert hfmt (convert_other hd hs)
    rw [hloop, ih (o := o.after _ 0) hfmt' hargs, Output.after_after, Nat.zero_add]
    rfl
  | lone =>
    obtain ⟨n', hfmt', hloop⟩ := formatLoop_emit (k := k) (o := o) hfmt fun _ => rfl
    obtain ⟨hzero, n, rfl⟩ := cstrN_nil hfmt'
    rw [hloop, formatLoop, if_pos hzero]
    rfl
  | char hc hexp ih =>
    obtain ⟨n', hfmt', hloop⟩ := formatLoop_emit (k := k) (o := o) hfmt fun heq => absurd heq hc
    rw [hloop, ih (o := o.after _ 0) hfmt' hargs, Output.after_after, Nat.zero_add]
    rfl

/-! ## What is sent, and where it is stored -/

/-- The arguments of a call lie on its stack, in order. -/
def Given (k : Stack) (args : List Word) : Prop := ∀ i < args.length, k.args i = args.getD i 0

instance {args : List Word} : Decidable (Given k args) :=
  inferInstanceAs (Decidable (∀ i, i < args.length → _))

/-- The buffer with a text and its NUL. -/
def filled (k : Stack) (text : List Byte) : Chars :=
  ((Chars.fresh k.buffer).puts 0 text).put text.length 0

/-- **The buffer holds the expansion**. -/
theorem expand_eq (hfmt : m.cstr? format = some fmt) (hexp : Expands m fmt args text)
    (hargs : Given k args) : expand m k format = some (filled k text) := by
  have hgiven : ∀ i < args.length, k.args (0 + i) = args.getD i 0 := fun i hi => by
    rw [Nat.zero_add, hargs i hi]
  have hloop := formatLoop_eq (o := ⟨.fresh k.buffer, 0, 0⟩) hexp hfmt hgiven
  rw [expand, hloop, filled, ← Nat.zero_add text.length]
  rfl

theorem lies_filled (h0 : 0 ∉ text) : Lies (filled k text).bytes 0 text := by
  refine lies_of_getD h0 (fun i hi => ?_) ?_
  · rw [filled, Chars.bytes_put, if_neg (by omega), Chars.bytes_puts, if_pos (by omega),
      Nat.zero_add, Nat.sub_zero]
  · rw [filled, Chars.bytes_put, if_pos (Nat.zero_add _)]

/-- The bytes that were stored. -/
theorem mem_touched_filled : i ∈ (filled k text).touched ↔ i ≤ text.length := by
  have hnone : i ∉ (Chars.fresh k.buffer).touched := List.not_mem_nil
  rw [filled, Chars.mem_touched_put, Chars.mem_touched_puts, or_iff_left hnone]
  omega

/-- An expansion has no NUL. -/
theorem Expands.zero_notMem (h : Expands m fmt args text) (h0 : 0 ∉ fmt) : 0 ∉ text := by
  induction h with
  | nil => exact h0
  | int value hexp ih =>
    rw [List.mem_append, not_or]
    exact ⟨(itoa_ten_fits value).2,
      ih fun hz => h0 (List.mem_cons_of_mem _ (List.mem_cons_of_mem _ hz))⟩
  | str hs hexp ih =>
    rw [List.mem_append, not_or]
    exact ⟨(Mem.cstr?_eq_some.mp hs).1,
      ih fun hz => h0 (List.mem_cons_of_mem _ (List.mem_cons_of_mem _ hz))⟩
  | other hd hs hexp ih =>
    rw [List.mem_cons, List.mem_cons, not_or, not_or] at h0 ⊢
    exact ⟨h0.1, h0.2.1, ih h0.2.2⟩
  | lone => exact h0
  | char hc hexp ih =>
    rw [List.mem_cons, not_or] at h0 ⊢
    exact ⟨h0.1, ih h0.2⟩

/-- What is sent is the expansion. -/
theorem printk_eq (hfmt : m.cstr? format = some fmt) (hexp : Expands m fmt args text)
    (hargs : Given k args) (hlen : text.length ≤ 255) : printk m k format = some text := by
  have h0 := hexp.zero_notMem (Mem.cstr?_eq_some.mp hfmt).1
  rw [printk, expand_eq hfmt hexp hargs]
  exact line_eq (lies_filled h0) (hlen.trans_lt (by decide))

/-- Every byte that is stored is one of `buffer`. -/
def Inside (m : Mem) (k : Stack) (format : Word) : Prop :=
  ∃ b, expand m k format = some b ∧ ∀ i ∈ b.touched, i < bufferSize

/-- **`printk` sends the expansion** of its format, if it is of at most 255 characters, and stores
nothing outside its buffer on the way. -/
theorem printk_expands (hfmt : m.cstr? format = some fmt) (hexp : Expands m fmt args text)
    (hargs : Given k args) (hlen : text.length ≤ 255) :
    printk m k format = some text ∧ Inside m k format := by
  refine ⟨printk_eq hfmt hexp hargs hlen, _, expand_eq hfmt hexp hargs, fun i hi => ?_⟩
  exact Nat.lt_succ_of_le ((mem_touched_filled.mp hi).trans hlen)

/-- `"%s=%d%"`, and `"x"`. -/
def pairMem : Mem := Mem.store (Mem.store (fun _ => 0) 0x1000 (str "%s=%d%")) 0x2000 (str "x")

/-- Their arguments, with whatever lies in the arrays. -/
def pairStack : Stack := ⟨fun _ => 0xff, fun _ => 0xff, fun i => if i = 0 then 0x2000 else -7⟩

theorem format_pair : pairMem.cstr? 0x1000 = some (str "%s=%d%") :=
  Mem.cstr?_eq_some.mpr ⟨by decide, by decide, by decide +kernel⟩

theorem expands_pair : Expands pairMem (str "%s=%d%") [0x2000, -7] (str "x=-7%") := by
  have hs : pairMem.cstr? 0x2000 = some (str "x") :=
    Mem.cstr?_eq_some.mpr ⟨by decide, by decide, by decide +kernel⟩
  exact .str hs (.char (by decide) (.int (-7) .lone))

theorem printk_expands_pair :
    printk pairMem pairStack 0x1000 = some (str "x=-7%") ∧ Inside pairMem pairStack 0x1000 :=
  printk_expands format_pair expands_pair (by decide) (by decide)

/-- What a string in memory is long. -/
def textLength (m : Mem) (p : Word) : ℕ := ((m.cstr? p).map List.length).getD 0

/-- The room a format takes with its arguments: a byte for a character, and for a conversion what
the number or the string is long that it takes. -/
def room (m : Mem) : List Byte → List Word → ℕ
  | [], _ => 0
  | [_], _ => 1
  | c :: d :: fmt, args =>
      if c = chr '%' then
        if d = chr 'd' then (itoa (args.headD 0) 10).length + room m fmt args.tail
        else if d = chr 's' then textLength m (args.headD 0) + room m fmt args.tail
        else 2 + room m fmt args
      else 1 + room m (d :: fmt) args

theorem room_cons {c : Byte} (hc : c ≠ chr '%') : room m (c :: fmt) args = 1 + room m fmt args := by
  cases fmt with
  | nil => rfl
  | cons d fmt => rw [room, if_neg hc]

/-- That is the length of the expansion. -/
theorem Expands.length_eq (h : Expands m fmt args text) : text.length = room m fmt args := by
  induction h with
  | nil => rfl
  | int value hexp ih =>
    rw [room, if_pos rfl, if_pos rfl, List.length_append, ih, List.headD_cons, List.tail_cons]
  | str hs hexp ih =>
    rw [room, if_pos rfl, if_neg (by decide), if_pos rfl, List.length_append, ih, List.headD_cons,
      List.tail_cons, textLength, hs, Option.map_some, Option.getD_some]
  | other hd hs hexp ih =>
    rw [room, if_pos rfl, if_neg hd, if_neg hs, List.length_cons, List.length_cons, ih]
    omega
  | lone => rfl
  | char hc hexp ih => rw [room_cons hc, List.length_cons, ih, Nat.add_comm]

/-- **`printk` stays inside its buffer** exactly if its format takes at most 255 bytes. -/
theorem inside_iff (hfmt : m.cstr? format = some fmt) (hexp : Expands m fmt args text)
    (hargs : Given k args) : Inside m k format ↔ room m fmt args ≤ 255 := by
  have hexpand := expand_eq hfmt hexp hargs
  rw [← hexp.length_eq]
  constructor
  · rintro ⟨b, hb, hin⟩
    obtain rfl := Option.some.inj (hexpand.symm.trans hb)
    exact Nat.le_of_lt_succ (hin _ (mem_touched_filled.mpr le_rfl))
  · intro hlen
    exact ⟨_, hexpand, fun i hi => Nat.lt_succ_of_le ((mem_touched_filled.mp hi).trans hlen)⟩

theorem inside_iff_pair : Inside pairMem pairStack 0x1000 :=
  (inside_iff format_pair expands_pair (by decide)).mpr (by
    rw [← expands_pair.length_eq]
    decide)

/-! ## Formats that stand for themselves -/

/-- A format with a `%d` or a `%s` in it; a `'%'` takes the character behind it along. -/
def hasConversion : List Byte → Bool
  | [] => false
  | [_] => false
  | c :: d :: s =>
      if c = chr '%' then d = chr 'd' || d = chr 's' || hasConversion s else hasConversion (d :: s)

/-- **Without a conversion a format is its own expansion**, and takes no argument. -/
theorem expands_self : ∀ {s : List Byte}, hasConversion s = false → Expands m s [] s
  | [], _ => .nil
  | [c], _ => by
      by_cases hc : c = chr '%'
      · exact hc ▸ .lone
      · exact .char hc .nil
  | c :: d :: s, h => by
      rw [hasConversion] at h
      by_cases hc : c = chr '%'
      · rw [if_pos hc, Bool.or_eq_false_iff, Bool.or_eq_false_iff, decide_eq_false_iff_not,
          decide_eq_false_iff_not] at h
        exact hc ▸ .other h.1.1 h.1.2 (expands_self h.2)
      · rw [if_neg hc] at h
        exact .char hc (expands_self h)

/-- 256 letters. -/
def letters : List Byte := List.replicate 256 (chr 'a')

/-- **256 letters do not fit**: the NUL is stored behind the buffer. -/
theorem not_inside_letters : ¬ Inside (Mem.store (fun _ => 0) 0x1000 (letters ++ [0]))
    ⟨fun _ => 0, fun _ => 0, fun _ => 0⟩ 0x1000 := by
  rintro ⟨b, hb, hin⟩
  have hfmt : (Mem.store (fun _ => 0) 0x1000 (letters ++ [0])).cstr? 0x1000 = some letters :=
    Mem.cstr?_store _ _ (by decide +kernel) (by decide +kernel)
  have hexp := expand_eq (k := ⟨fun _ => 0, fun _ => 0, fun _ => 0⟩) hfmt
    (expands_self (by decide +kernel)) fun _ h => absurd h (Nat.not_lt_zero _)
  obtain rfl := Option.some.inj (hexp.symm.trans hb)
  exact absurd (hin 256 (mem_touched_filled.mpr (by decide +kernel))) (by decide)

end Printk

end HuskyKernel
