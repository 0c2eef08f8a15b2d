import HuskyKernel.Logic.Wp
import HuskyKernel.System.Memory

/-!
# BuiltIn/Machine — the state the microshell runs on

`microshell.h`'s variable table and execution context, the two statics of `microshell.c`, and the
parts of the machine its functions reach: memory, the heap, the keyboard, the ports.  A function of
the shell is a computation `Msh` on this state.  It returns, or it stops for good (`Stop`): the C
then hangs or traps, and the state is the one it does so in.

Two fields are not in the C: `log` records what the run did to the outside and which pointers it
handed to a string function, `reach` the largest index at which the program text has been read.
-/

namespace HuskyKernel

/-! ## Values -/

/-- `msh_type_t`. -/
inductive MshType where
  | none
  | int
  | float
  | str
  | bool
deriving DecidableEq, Repr

/-- The enumerator's value, as the low byte of the field holds it. -/
def MshType.tag : MshType → Byte
  | .none => 0
  | .int => 1
  | .float => 2
  | .str => 3
  | .bool => 4

/-- `msh_var_t`: the 32 bytes of `name`, the tag, and the four bytes the union shares. -/
structure MshVar where
  name : List Byte
  type : MshType
  val : Word
deriving DecidableEq, Repr

namespace MshVar

/-- `(msh_var_t){0}`. -/
def zero : MshVar := ⟨List.replicate 32 0, .none, 0⟩

/-- What a `char*` to `name` walks over: a name without a NUL runs on into the tag, whose second
byte is one. -/
def bytes (v : MshVar) : List Byte := v.name ++ [v.type.tag]

/-- `bool_val`: the low byte of the union. -/
def boolVal (v : MshVar) : Bool := v.val.setWidth 8 ≠ 0

end MshVar

/-! ## The machine -/

/-- What a run does besides computing.  `strArg` is a value whose `str_val` is handed to a string
function, `dest` a pointer one is told to write to. -/
inductive Event where
  | strArg (type : MshType) (ptr : Word)
  | dest (ptr : Word)
  | printk (format : List Byte)
  | putchar (c : Byte)
  | inw (port : BitVec 16)
  | outw (port value : BitVec 16)
deriving DecidableEq, Repr

/-- The floating-point unit, on the bit patterns of `float`: the conversions and the arithmetic the
shell uses, `atof` cut to a `float`, and `(int)((f - int_part) * 1000)`. -/
structure Fpu where
  ofInt : Word → Word
  toInt : Word → Word
  thousandths : Word → Word → Word
  atof : List Byte → Word
  add : Word → Word → Word
  sub : Word → Word → Word
  mul : Word → Word → Word
  div : Word → Word → Word
  isZero : Word → Bool

/-- What the shell is linked against: the heap, the ports (a port answers by what has been done so
far), and the floating-point unit. -/
structure Host where
  heap : HeapArray
  inw : List Event → BitVec 16 → BitVec 16
  fpu : Fpu

/-- `msh_ctx_t ctx`, with the statics and the machine around it.  `vars i` is `ctx.vars[i]`, and the
array has 64 of them; `code` is what `ctx.code` points to, up to the end of memory; `identBuf` is
the string in the static buffer of `parse_ident`; `keys` is what `keyboard_read_key` will
return. -/
structure Machine where
  vars : ℕ → MshVar
  varCount : ℕ
  code : List Byte
  pc : ℕ
  hadError : Bool
  identBuf : List Byte
  mem : Mem
  heapIndex : Word
  keys : List Byte
  log : List Event
  reach : ℕ

/-- A host with nothing behind its ports. -/
def Host.bare : Host where
  heap := Heap.heapAt4M
  inw _ _ := 0
  fpu := ⟨id, id, fun _ _ => 0, fun _ => 0, fun a _ => a, fun a _ => a, fun a _ => a, fun a _ => a,
    fun a => a = 0⟩

/-- The machine at boot: the data segment is zero. -/
def Machine.boot : Machine where
  vars _ := MshVar.zero
  varCount := 0
  code := []
  pc := 0
  hadError := false
  identBuf := []
  mem _ := 0
  heapIndex := 0
  keys := []
  log := []
  reach := 0

/-- Why a run does not return: the fuel of the model's loops ran out, no NUL ends the string, the
division traps, or no key is ever pressed. -/
inductive Stop where
  | outOfFuel
  | noNul
  | divTrap
  | noKey
deriving DecidableEq, Repr

/-- The C stops, not the model. -/
def Stop.Real (e : Stop) : Prop := e ≠ .outOfFuel

/-- A computation of the shell. -/
abbrev Msh := EStateM Stop Machine

namespace Machine

/-- `ctx.code[ctx.pc]`. -/
def cur (s : Machine) : Byte := s.code.getD s.pc 0

/-- What `&ctx.code[ctx.pc]` points to. -/
def rest (s : Machine) : List Byte := s.code.drop s.pc

/-- The machine after a read of `ctx.code[ctx.pc]`. -/
def seen (s : Machine) : Machine := { s with reach := max s.reach s.pc }

/-- The index `find_var` stops at. -/
def lookup (s : Machine) (name : List Byte) : Option ℕ :=
  (List.range s.varCount).find? fun i => strcmp (s.vars i).bytes name = 0

/-- `ctx.vars[i] = v`. -/
def setVar (s : Machine) (i : ℕ) (v : MshVar) : Machine :=
  { s with vars := Function.update s.vars i v }

@[simp] theorem setVar_self (s : Machine) (i : ℕ) (v : MshVar) : (s.setVar i v).vars i = v :=
  Function.update_self ..

theorem setVar_of_ne {i j : ℕ} (s : Machine) (v : MshVar) (hji : j ≠ i) :
    (s.setVar i v).vars j = s.vars j := Function.update_of_ne hji ..

end Machine

namespace Msh

open Scan

/-! ## Reading the program -/

/-- Read `ctx.code[ctx.pc]`. -/
def peek : Msh Byte := fun s => .ok s.cur s.seen

/-- `ctx.pc += n`. -/
def advance (n : ℕ) : Msh Unit := fun s => .ok () { s with pc := s.pc + n }

/-- `while (p(ctx.code[ctx.pc])) ctx.pc++;`, and what it walked over. -/
def scanCode (p : Byte → Bool) : Msh (List Byte) := fun s =>
  .ok (scanned p s.code s.pc)
    { s with pc := scan p s.code s.pc, reach := max s.reach (scan p s.code s.pc) }

/-- `strncmp(&ctx.code[ctx.pc], w, n) == 0`. -/
def keyword (w : String) (n : ℕ) : Msh Bool := fun s => .ok (strncmp s.rest (str w) n = 0) s

/-- `ctx.had_error = true`. -/
def raise : Msh Unit := fun s => .ok () { s with hadError := true }

def emit (e : Event) : Msh Unit := fun s => .ok () { s with log := e :: s.log }

/-- `skip_whitespace`. -/
def skipWhitespace : Msh Unit := do
  let _ ← scanCode isspace

/-- A character of an identifier. -/
def isIdent (c : Byte) : Bool := isalnum c || c = chr '_'

/-- `parse_ident`: the name goes to the static buffer, cut to 31 characters. -/
def parseIdent : Msh Unit := do
  skipWhitespace
  let cs ← scanCode isIdent
  modify fun s => { s with identBuf := cs.take 31 }

/-- `find_var` on the pointer `parse_ident` returned, that is on what its buffer holds by now. -/
def findVar : Msh (Option ℕ) := fun s => .ok (s.lookup s.identBuf) s

/-! ## Memory -/

section Memory

variable (h : Host)

/-- `malloc`. -/
def malloc (size : Word) : Msh Word := fun s =>
  .ok (HuskyKernel.malloc h.heap size s.heapIndex).1
    { s with heapIndex := (HuskyKernel.malloc h.heap size s.heapIndex).2 }

/-- Walk to the NUL at `a`. -/
def cstrAt (a : Word) : Msh (List Byte) := fun s =>
  match s.mem.cstr? a with
  | some bs => .ok bs s
  | none => .error .noNul s

/-- Store `bs` from address `a` on. -/
def store (a : Word) (bs : List Byte) : Msh Unit := fun s =>
  .ok () { s with mem := s.mem.store a bs }

/-- Run a copy loop on memory; without a NUL it never ends. -/
def copyLoop (f : Mem → Option Mem) : Msh Unit := fun s =>
  match f s.mem with
  | some m => .ok () { s with mem := m }
  | none => .error .noNul s

/-- `strlen(v.str_val)`. -/
def strlen (v : MshVar) : Msh Word := do
  emit (.strArg v.type v.val)
  return BitVec.ofNat 32 (← cstrAt v.val).length

/-- `strcpy(dest, v.str_val)`. -/
def strcpy (dest : Word) (v : MshVar) : Msh Unit := do
  emit (.dest dest)
  emit (.strArg v.type v.val)
  copyLoop fun m => m.strcpy dest v.val

/-- `strcat(dest, v.str_val)`. -/
def strcat (dest : Word) (v : MshVar) : Msh Unit := do
  emit (.dest dest)
  emit (.strArg v.type v.val)
  copyLoop fun m => m.strcat dest v.val

/-- `strdup(v.str_val)`: NULL if that is NULL, or if there is no room. -/
def strdup (v : MshVar) : Msh Word := do
  emit (.strArg v.type v.val)
  if v.val = 0 then return 0
  let len := BitVec.ofNat 32 (← cstrAt v.val).length + 1
  let p ← malloc h len
  if p ≠ 0 then modify fun s => { s with mem := s.mem.memcpy p v.val len.toNat }
  return p

/-- `strdup` of the static line buffer of `msh_read_line`. -/
def strdupLine (line : List Byte) : Msh Word := do
  let p ← malloc h (BitVec.ofNat 32 (cstr line).length + 1)
  if p ≠ 0 then store p (cstr line ++ [0])
  return p

end Memory

end Msh

end HuskyKernel
