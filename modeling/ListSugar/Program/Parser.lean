/-
Reading statements and programs.

The first token decides the kind of a statement, except that a name may begin a
declaration or an expression: a declaration is tried first, and is one only if a
name follows the type and an assignment, a semicolon or `in` follows the name.

A statement uses up at least one token, so the unread tokens bound the statements
of a block and the depth of nested ones.
-/
import ListSugar.Expr.Parser
import ListSugar.Program.Basic

namespace ListSugar.Parser

/-- An assignment or an expression, up to its semicolon. -/
def simpleStmt : Parser Stmt := do
  let head ← expr
  if ← accept .assign then
    let value ← expr
    expect (.symbol .semi)
    return .assign head value
  else
    expect (.symbol .semi)
    return .expr head

/-- A declaration without a type, after the word `var` on the given line. -/
def varStmt (line : Nat) : Parser Stmt := do
  let declared ← name .variable
  unless ← accept .assign do
    fail (.uninitialized declared)
  let init ← expr
  expect (.symbol .semi)
  return .declare none declared (some init) line

/-- A declaration with a type, after the declared name. -/
def typedStmt (ty : TypeExpr) (declared : String) (line : Nat) : Parser Stmt := do
  let init ← if ← accept .assign then some <$> expr else pure none
  expect (.symbol .semi)
  return .declare (some ty) declared init line

/-- The statements of a block up to and with its closing brace. -/
def blockItems (stmt : Parser Stmt) : Nat → Parser (List Stmt)
  | 0 => fail .openBlock
  | n + 1 => do
    if ← accept .rBrace then return []
    if (← token) = .eof then
      fail .openBlock
    let first ← stmt
    return first :: (← blockItems stmt n)

/-- A choice, after the word `if`. -/
def branchStmt (stmt : Parser Stmt) : Parser Stmt := do
  expect (.symbol .lParen)
  let cond ← expr
  expect (.symbol .rParen)
  let thenBranch ← stmt
  if (← token) = .keyword .else_ then
    skip
    return .branch cond thenBranch (some (← stmt))
  else return .branch cond thenBranch none

/-- The declared type and the name of a loop variable. -/
def loopVariable : Parser (Option TypeExpr × String) := do
  if (← token) = .keyword .var then
    skip
    return (none, ← name .loopVariable)
  else
    match ← declarator with
    | some (ty, declared) => return (some ty, declared)
    | none => fail .noLoopVariable

/-- A loop, after the word `foreach`. -/
def foreachStmt (stmt : Parser Stmt) : Parser Stmt := do
  expect (.symbol .lParen)
  let (ty, declared) ← loopVariable
  expect (.keyword .in_)
  let iter ← expr
  expect (.symbol .rParen)
  let body ← stmt
  return .foreach ty declared iter body

/-- A statement with others nested in it at most `n` deep. -/
def stmtNested : Nat → Parser Stmt
  | 0 => simpleStmt
  | n + 1 => do
    let line := (← place).line
    match ← token with
    | .symbol .lBrace =>
      skip
      return .block (← blockItems (stmtNested n) n)
    | .keyword .if_ =>
      skip
      branchStmt (stmtNested n)
    | .keyword .foreach =>
      skip
      foreachStmt (stmtNested n)
    | .keyword .var =>
      skip
      varStmt line
    | .ident _ =>
      match ← declarator with
      | some (ty, declared) => typedStmt ty declared line
      | none => simpleStmt
    | _ => simpleStmt

/-- A statement. -/
def stmt : Parser Stmt := do stmtNested (← remaining)

/-- Statements up to the end mark. -/
def stmtsToEnd : Nat → Parser (List Stmt)
  | 0 => return []
  | n + 1 => do
    if (← token) = .eof then return []
    let first ← stmt
    return first :: (← stmtsToEnd n)

/-- A program: statements up to the end mark. -/
def program : Parser Program := do
  let stmts ← stmtsToEnd (← remaining)
  return ⟨stmts, (← get).nextId⟩

end ListSugar.Parser
