import HuskyKernel.BuiltIn.Machine

/-!
# BuiltIn/Eval — `eval_expr`

The recursive evaluator, one definition a branch.  It calls itself on the operand behind an operator
and on the arguments of the built-in words; `evalExprN` bounds the depth, and `evalExpr` takes a
bound no text can reach, since every call has consumed a character of the text since the one
around it.

The built-in words are tested after `isalpha`, so the branch that knows them (`builtinWord`) is
entered only on a character that starts none of them.
-/

namespace HuskyKernel

namespace Msh

variable (h : Host)

/-! ## Operands -/

/-- A number: its digits, accumulated in an `int`. -/
def numberLiteral : Msh MshVar := do
  let ds ← scanCode isdigit
  return { MshVar.zero with type := .int, val := decimal ds }

/-- What the first part of `eval_expr` leaves: a left operand to go on with, or a value to return at
once. -/
inductive Operand where
  | left (v : MshVar)
  | done (v : MshVar)

/-- A heap copy of the text from `start` up to the cursor. -/
def copyLiteral (start : ℕ) : Msh Word := do
  let s ← get
  let len := BitVec.ofNat 32 (s.pc - start)
  let p ← malloc h (len + 1)
  emit (.dest p)
  store p (HuskyKernel.strncpy (s.code.drop start) len.toNat)
  store (p + len) [0]
  return p

/-- Inside a string: neither the closing quote nor the end of the text. -/
def inString (c : Byte) : Bool := c ≠ chr '"' && c ≠ 0

/-- A string: copied to the heap, unless the text ends before its closing quote. -/
def stringLiteral : Msh Operand := do
  advance 1
  let start := (← get).pc
  let _ ← scanCode inString
  if (← peek) ≠ chr '"' then
    raise
    return .done MshVar.zero
  let p ← copyLiteral h start
  advance 1
  return .left { MshVar.zero with type := .str, val := p }

/-- A variable: its whole entry is copied, name included, and a string value is duplicated. -/
def variableRef : Msh MshVar := do
  parseIdent
  match ← findVar with
  | some i =>
    let v := (← get).vars i
    if v.type = .str then return { v with val := ← strdup h v }
    return v
  | none =>
    raise
    return MshVar.zero

/-- `printk(str_val)`, recorded with the format it is given. -/
def printkAt (a : Word) : Msh Unit := do
  emit (.printk (← cstrAt a))

/-! ## The console

`msh_read_line` polls the keyboard until Enter, or until its buffer holds 255 characters. -/

/-- `normal_to_shifted2`.  A key of 128 or more would index behind the table; the PS/2 table has
none. -/
def normalToShifted2 (key : Byte) : Byte :=
  ((str "0123456789abcdefghijklmnopqrstuvwxyz-=[];',./\\").zip
    (str ")!@#$%^&*(ABCDEFGHIJKLMNOPQRSTUVWXYZ_+\x7b\x7d:\"<>?|")).lookup key |>.getD 0

/-- The loop of `msh_read_line`: the first `pos` characters of its buffer, the pending shift, the
keys to come.  What it answers is the line, the characters echoed (the latest first) and the keys
left; `none` when the keys run out. -/
def readLineLoop : List Byte → Bool → List Byte → List Byte →
    Option (List Byte × List Byte × List Byte)
  | line, shift, echo, keys =>
    if line.length < 255 then
      match keys with
      | [] => none
      | key :: keys =>
        if key = 0 then readLineLoop line shift echo keys
        else if key = 4 then some (line, echo, keys)
        else if key = 2 then
          if line.length > 0 then readLineLoop line.dropLast shift (0x08 :: echo) keys
          else readLineLoop line shift echo keys
        else if key = 6 ∨ key = 7 then readLineLoop line true echo keys
        else
          let key := if shift then normalToShifted2 key else key
          readLineLoop (line ++ [key]) false (key :: echo) keys
    else some (line, echo, keys)

/-- `msh_read_line`: a heap copy of the line. -/
def mshReadLine : Msh Word := do
  let s ← get
  match readLineLoop [] false [] s.keys with
  | none => throw .noKey
  | some (line, echo, keys) =>
    set { s with keys := keys, log := echo.map Event.putchar ++ s.log }
    strdupLine h line

/-- `builtin_input`. -/
def builtinInput : Msh MshVar := do
  let input ← mshReadLine h
  if input ≠ 0 then return { MshVar.zero with type := .str, val := input }
  return MshVar.zero

/-! ## Built-in words -/

/-- `inw(arg.int_val)`, widened to an `int`. -/
def inw (port : Word) : Msh Word := fun s =>
  .ok ((h.inw s.log (port.setWidth 16)).setWidth 32)
    { s with log := .inw (port.setWidth 16) :: s.log }

/-- `True`, `False`, `inw(`, `outw(`, `input(`, in the order of the C; anything else is an operand
of type NONE. -/
def builtinWord (eval : Msh MshVar) : Msh Operand := do
  if ← keyword "True" 4 then
    advance 4
    return .left { MshVar.zero with type := .bool, val := 1 }
  else if ← keyword "False" 5 then
    advance 5
    return .left { MshVar.zero with type := .bool, val := 0 }
  else if ← keyword "inw(" 4 then
    advance 4
    let arg ← eval
    if arg.type = .int ∧ (← peek) = chr ')' then
      advance 1
      return .left { MshVar.zero with type := .int, val := ← inw h arg.val }
    else
      raise
      return .left MshVar.zero
  else if ← keyword "outw(" 5 then
    advance 5
    let port ← eval
    if (← peek) ≠ chr ',' then
      raise
      return .left MshVar.zero
    else
      advance 1
      let value ← eval
      if port.type = .int ∧ value.type = .int ∧ (← peek) = chr ')' then
        advance 1
        emit (.outw (port.val.setWidth 16) (value.val.setWidth 16))
        return .left MshVar.zero
      else
        raise
        return .left MshVar.zero
  else if ← keyword "input(" 6 then
    advance 6
    if (← peek) = chr ')' then
      advance 1
      return .done (← builtinInput h)
    else
      let prompt ← eval
      if prompt.type = .str then printkAt prompt.val
      if (← peek) ≠ chr ')' then
        raise
        return .done MshVar.zero
      advance 1
      return .done (← builtinInput h)
  else return .left MshVar.zero

/-- The first part of `eval_expr`, up to the operator. -/
def evalOperand (eval : Msh MshVar) : Msh Operand := do
  skipWhitespace
  let c ← peek
  if isdigit c then return .left (← numberLiteral)
  else if c = chr '"' then stringLiteral h
  else if isalpha c then return .left (← variableRef h)
  else builtinWord h eval

/-! ## Operators -/

/-- `convert_var`. -/
def convertVar (v : MshVar) (target : MshType) : Msh MshVar :=
  let result := { MshVar.zero with type := target }
  match v.type, target with
  | .int, .str => do
    let p ← malloc h 32
    if p ≠ 0 then
      emit (.dest p)
      store p (itoa v.val 10 ++ [0])
    return { result with val := p }
  | .int, .float => return { result with val := h.fpu.ofInt v.val }
  | .float, .str => do
    let p ← malloc h 32
    if p ≠ 0 then
      let intPart := h.fpu.toInt v.val
      let frac := h.fpu.thousandths v.val intPart
      let fracPart := if frac.slt 0 then -frac else frac
      emit (.dest p)
      -- the point goes over the NUL of the integer part, the fraction behind it
      store p (itoa intPart 10 ++ chr '.' :: itoa fracPart 10 ++ [0])
    return { result with val := p }
  | .float, .int => return { result with val := h.fpu.toInt v.val }
  | .str, .int => do
    emit (.strArg v.type v.val)
    return { result with val := atoi (← cstrAt v.val) }
  | .str, .float => do
    emit (.strArg v.type v.val)
    return { result with val := h.fpu.atof (← cstrAt v.val) }
  | _, _ => return v

/-- The common type of the operands, and the operands converted to it: FLOAT wins over INT, INT over
the rest, and two other types are left as they are. -/
def unify (left right : MshVar) : Msh (MshType × MshVar × MshVar) := do
  if left.type ≠ right.type then
    if left.type = .float ∨ right.type = .float then
      let left ← convertVar h left .float
      let right ← convertVar h right .float
      return (.float, left, right)
    else if left.type = .int ∨ right.type = .int then
      let left ← convertVar h left .int
      let right ← convertVar h right .int
      return (.int, left, right)
  return (left.type, left, right)

/-- `a / b` on `int`s: the processor traps on `INT_MIN / -1`. -/
def idiv (a b : Word) : Msh Word :=
  if a = BitVec.intMin 32 ∧ b = -1 then throw .divTrap else return a.sdiv b

/-- The new string of `left + right`. -/
def concat (left right : MshVar) : Msh Word := do
  let l ← strlen left
  let r ← strlen right
  let p ← malloc h (l + r + 1)
  strcpy p left
  strcat p right
  return p

/-- `switch (op)`.  A case that stores nothing leaves what `result` held, the left operand's bits.
The `free` calls behind it do nothing. -/
def applyOp (op : Byte) (result : MshVar) (common : MshType) (left right : MshVar) :
    Msh MshVar :=
  if op = chr '+' then
    match common with
    | .int => return { result with val := left.val + right.val }
    | .float => return { result with val := h.fpu.add left.val right.val }
    | .str => return { result with val := ← concat h left right }
    | _ => return result
  else if op = chr '-' then
    match common with
    | .int => return { result with val := left.val - right.val }
    | .float => return { result with val := h.fpu.sub left.val right.val }
    | _ => return result
  else if op = chr '*' then
    match common with
    | .int => return { result with val := left.val * right.val }
    | .float => return { result with val := h.fpu.mul left.val right.val }
    | _ => return result
  else
    if common = .int ∧ right.val ≠ 0 then return { result with val := ← idiv left.val right.val }
    else if common = .float ∧ !h.fpu.isZero right.val then
      return { result with val := h.fpu.div left.val right.val }
    else do
      raise
      return result

/-- An operator character. -/
def isOp (c : Byte) : Bool := c = chr '+' || c = chr '-' || c = chr '*' || c = chr '/'

/-- The second part of `eval_expr`: the operator, if one follows, and all that is behind it. -/
def evalTail (eval : Msh MshVar) (left : MshVar) : Msh MshVar := do
  skipWhitespace
  let op ← peek
  if isOp op then
    advance 1
    let right ← eval
    -- `result` still is the left operand, before any conversion
    let (common, l, r) ← unify h left right
    applyOp h op { left with type := common } common l r
  else return left

/-- `eval_expr`, nested at most `n` deep. -/
def evalExprN : ℕ → Msh MshVar
  | 0 => throw .outOfFuel
  | n + 1 => do
    match ← evalOperand h (evalExprN n) with
    | .done v => return v
    | .left v => evalTail h (evalExprN n) v

/-- `eval_expr`. -/
def evalExpr : Msh MshVar := fun s => evalExprN h (s.code.length + 1) s

end Msh

end HuskyKernel
