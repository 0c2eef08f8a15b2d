import HuskyKernel.BuiltIn.Eval

/-!
# BuiltIn/Execute — `msh_execute`

The statement loop.  The dispatch tests for an identifier first, so the keywords behind that test
(`keywordStmt`) are tried only on a character that starts none of them.  A block is run by calling
`msh_execute` again, on the one global `ctx`: `run` is that call, and `fuel` bounds its depth and
the rounds of every loop.
-/

namespace HuskyKernel

namespace Msh

variable (h : Host)

/-! ## Assignment -/

/-- The entry an assignment writes: the one `find_var` finds, else a new one, named by
`strncpy(var->name, name, 31)`; none if all 64 are taken. -/
def assignSlot : Msh (Option ℕ) := do
  match ← findVar with
  | some i => return some i
  | none =>
    let s ← get
    if s.varCount < 64 then
      let var := s.vars s.varCount
      set { s.setVar s.varCount
              { var with name := strncpy s.identBuf 31 ++ var.name.drop 31 } with
            varCount := s.varCount + 1 }
      return some s.varCount
    else
      raise
      return none

/-- `*var = value`, for the whole struct.  Freeing the old string does nothing. -/
def assignVar (value : MshVar) : Msh Unit := do
  match ← assignSlot with
  | some i => modify fun s => s.setVar i value
  | none => return

/-- A statement that starts with an identifier: an assignment if `=` follows, else nothing. -/
def identStmt : Msh Unit := do
  parseIdent
  skipWhitespace
  if (← peek) = chr '=' then
    advance 1
    let value ← evalExpr h
    if !(← get).hadError then assignVar value

/-! ## Blocks -/

/-- How far `while (c != '\0' && (c != '\n' || !isspace(c[1]))) ctx.pc++;` goes. -/
def blockLen : List Byte → ℕ
  | [] => 0
  | c :: t => if c ≠ 0 ∧ (c ≠ chr '\n' ∨ !isspace (t.headD 0)) then blockLen t + 1 else 0

/-- `strndup(&ctx.code[start], n)`. -/
def strndup (start n : ℕ) : Msh Word := do
  let p ← malloc h (BitVec.ofNat 32 n + 1)
  if p = 0 then return 0
  emit (.dest p)
  store p ((cstr ((← get).code.drop start)).take n ++ [0])
  return p

/-- Cut out the block at the cursor and run it: `run` gets memory from the copy on. -/
def runBlock (run : List Byte → Msh Bool) : Msh Unit := do
  skipWhitespace
  let start := (← get).pc
  modify fun s => { s with pc := s.pc + blockLen s.rest
                           reach := max s.reach (s.pc + blockLen s.rest) }
  let p ← strndup h start ((← get).pc - start)
  let s ← get
  let _ ← run (s.mem.load p (Mem.span - p.toNat))

/-! ## Keyword statements -/

/-- The colon behind a condition. -/
def colon : Msh Unit := do
  skipWhitespace
  if (← peek) ≠ chr ':' then raise else advance 1

/-- `print(`…`)`. -/
def printStmt : Msh Unit := do
  advance 7
  let arg ← evalExpr h
  if !(← get).hadError then
    if arg.type = .str then printkAt arg.val
    else if arg.type = .int then emit (.printk (itoa arg.val 10))
  if (← peek) ≠ chr ')' then raise else advance 1

/-- The condition of an `if` or a `while`, up to its colon. -/
def condition : Msh MshVar := do
  let cond ← evalExpr h
  if cond.type ≠ .bool then raise
  colon
  return cond

/-- `if `…`:`. -/
def ifStmt (run : List Byte → Msh Bool) : Msh Unit := do
  advance 3
  let cond ← condition h
  if !(← get).hadError ∧ cond.boolVal then runBlock h run

/-- The rounds of a `while`: the condition is evaluated again, its type is not checked again. -/
def whileLoop (run : List Byte → Msh Bool) (condStart : ℕ) : ℕ → MshVar → Msh Unit
  | 0, _ => throw .outOfFuel
  | n + 1, cond => do
    if !(← get).hadError ∧ cond.boolVal then
      runBlock h run
      modify fun s => { s with pc := condStart }
      let cond ← evalExpr h
      colon
      whileLoop run condStart n cond

/-- `while `…`:`. -/
def whileStmt (run : List Byte → Msh Bool) (fuel : ℕ) : Msh Unit := do
  advance 6
  let condStart := (← get).pc
  let cond ← condition h
  whileLoop h run condStart fuel cond

/-- The rest of the dispatch: the keywords, and a catch-all that skips one character. -/
def keywordStmt (run : List Byte → Msh Bool) (fuel : ℕ) : Msh Unit := do
  if ← keyword "print(" 7 then printStmt h
  else if ← keyword "if " 3 then ifStmt h run
  else if ← keyword "while " 6 then whileStmt h run fuel
  else advance 1

/-! ## The loop -/

/-- One round of the main loop, its test passed. -/
def stmt (run : List Byte → Msh Bool) (fuel : ℕ) : Msh Unit := do
  skipWhitespace
  if isalpha (← peek) then identStmt h
  else keywordStmt h run fuel

/-- `while (ctx.code[ctx.pc] != '\0' && !ctx.had_error)`. -/
def mshLoop (body : Msh Unit) : ℕ → Msh Unit
  | 0 => throw .outOfFuel
  | n + 1 => do
    if (← peek) ≠ 0 ∧ !(← get).hadError then
      body
      mshLoop body n

/-- The first three lines of `msh_execute`. -/
def enter (code : List Byte) (s : Machine) : Machine :=
  { s with code := code, pc := 0, hadError := false, reach := 0 }

/-- `msh_execute`. -/
def mshExecute : ℕ → List Byte → Msh Bool
  | 0, _ => throw .outOfFuel
  | n + 1, code => do
    modify (enter code)
    mshLoop (stmt h (mshExecute n) n) (n + 1)
    return !(← get).hadError

/-- `msh_init`: the context is zeroed, the program pointer with it. -/
def mshInit (s : Machine) : Machine :=
  { s with vars := fun _ => MshVar.zero, varCount := 0, code := [], pc := 0, hadError := false,
           reach := 0 }

end Msh

end HuskyKernel
