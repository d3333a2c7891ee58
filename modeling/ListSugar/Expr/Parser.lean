/-
Reading an expression.

Six levels of binary operators, all grouping to the left, stand above the operators
before an operand, the suffixes after one, and the primary expressions.  The parsers
for the parts take the parser for a whole expression as an argument, and
`exprNested` ties them together by recursion on how deep expressions may nest.

A place where an operand is wanted and a token stands that can only end one holds a
missing node, which uses up nothing.  So `[<1, 2>]` is read as an element access
with the arguments `_ < 1` and `2 > _`.

A node takes its number after its parts have theirs; only the missing receiver of a
bare bracket is numbered before the arguments.  An operator or suffix node stands
where its first part stands.

The bound `n` of the loops is never below the number of unread tokens, and every
round uses up a token, so a loop that reaches zero has only the end mark to see.
-/
import ListSugar.Expr.Basic
import ListSugar.TypeExpr.Parser

namespace ListSugar

/-! ### Classes of tokens -/

namespace Token

/-- The value of a literal token. -/
def literal? : Token → Option Literal
  | .int value => some (.int value)
  | .double value => some (.double value)
  | .str value => some (.str value)
  | .char value => some (.char value)
  | .bool value => some (.bool value)
  | .null => some .null
  | .ident _ | .keyword _ | .symbol _ | .eof => none

/-- The operator before an operand that a token is. -/
def unaryOp? : Token → Option UnaryOp
  | .symbol .minus => some .neg
  | .symbol .bang => some .not
  | _ => none

/-- Whether a token ends an operand without beginning one. -/
def endsOperand : Token → Bool
  | .symbol .lt => true
  | .symbol .gt => true
  | .symbol .lte => true
  | .symbol .gte => true
  | .symbol .comma => true
  | .symbol .semi => true
  | .symbol .rParen => true
  | .symbol .rBracket => true
  | .symbol .rBrace => true
  | _ => false

end Token

/-- The operators that bind equally tightly, as tokens. -/
abbrev Level := Token → Option BinaryOp

namespace Level

/-- The level of `||`. -/
def disjunction : Level
  | .symbol .orOr => some .or
  | _ => none

/-- The level of `&&`. -/
def conjunction : Level
  | .symbol .andAnd => some .and
  | _ => none

/-- The level of `==` and `!=`. -/
def equality : Level
  | .symbol .eq => some .eq
  | .symbol .neq => some .neq
  | _ => none

/-- The level of the comparisons. -/
def comparison : Level
  | .symbol .lt => some .lt
  | .symbol .gt => some .gt
  | .symbol .lte => some .lte
  | .symbol .gte => some .gte
  | _ => none

/-- The level of `+` and `-`. -/
def sum : Level
  | .symbol .plus => some .add
  | .symbol .minus => some .sub
  | _ => none

/-- The level of `*`, `/` and `%`. -/
def product : Level
  | .symbol .star => some .mul
  | .symbol .slash => some .div
  | .symbol .percent => some .rem
  | _ => none

/-- All levels, the loosest first. -/
def all : List Level := [disjunction, conjunction, equality, comparison, sum, product]

end Level

namespace Parser

/-- A mark at `pos` with a new number. -/
def markAt (pos : Pos) : Parser Mark := return ⟨← freshId, pos⟩

/-! ### Operators -/

/-- The operators of one level after their first operand. -/
def operatorsAfter (level : Level) (operand : Parser Expr) : Nat → Expr → Parser Expr
  | 0, left => return left
  | n + 1, left => do
    match level (← token) with
    | none => return left
    | some op =>
      skip
      let right ← operand
      operatorsAfter level operand n (.binary (← markAt left.pos) op left right)

/-- Expressions whose binary operators are of the given levels, the loosest first. -/
def operators (operand : Parser Expr) (n : Nat) : List Level → Parser Expr
  | [] => operand
  | level :: tighter => do
    let first ← operators operand n tighter
    operatorsAfter level (operators operand n tighter) n first

/-- An operand with the operators before it. -/
def signed (operand : Parser Expr) : Nat → Parser Expr
  | 0 => operand
  | n + 1 => do
    match (← token).unaryOp? with
    | none => operand
    | some op =>
      let pos ← place
      skip
      let inner ← signed operand n
      return .unary (← markAt pos) op inner

/-! ### Suffixes -/

/-- Arguments up to and with their closing bracket. -/
def arguments (expr : Parser Expr) (n : Nat) (close : Symbol) : Parser (List Expr) := do
  if ← accept close then return []
  let args ← commaSeparated expr n
  expect (.symbol close)
  return args

/-- The members, calls and element accesses after an expression. -/
def suffixes (expr : Parser Expr) : Nat → Expr → Parser Expr
  | 0, head => return head
  | n + 1, head => do
    match ← token with
    | .symbol .dot =>
      skip
      let name ← name .member
      suffixes expr n (.member (← markAt head.pos) head name)
    | .symbol .lParen =>
      skip
      let args ← arguments expr n .rParen
      suffixes expr n (.call (← markAt head.pos) head args)
    | .symbol .lBracket =>
      skip
      let args ← arguments expr n .rBracket
      suffixes expr n (.index (← markAt head.pos) head args)
    | _ => return head

/-! ### Primary expressions -/

/-- The elements of an initializer; a comma may stand after the last one. -/
def elements (expr : Parser Expr) : Nat → Parser (List Expr)
  | 0 => return []
  | n + 1 => do
    match ← token with
    | .symbol .rBrace => return []
    | .eof => return []
    | _ =>
      let first ← expr
      if ← accept .comma then
        return first :: (← elements expr n)
      else return [first]

/-- The arguments of a construction, if an opening parenthesis stands here. -/
def constructionArguments (expr : Parser Expr) (n : Nat) : Parser (Option (List Expr)) := do
  if ← accept .lParen then
    return some (← arguments expr n .rParen)
  else return none

/-- The initializer of a construction, if an opening brace stands here. -/
def constructionInitializer (expr : Parser Expr) (n : Nat) : Parser (Option (List Expr)) := do
  if ← accept .lBrace then
    let items ← elements expr n
    expect (.symbol .rBrace)
    return some items
  else return none

/-- A construction, after the keyword; it needs arguments or an initializer. -/
def construction (expr : Parser Expr) (n : Nat) (pos : Pos) : Parser Expr := do
  let ty ← type
  let args ← constructionArguments expr n
  let init ← constructionInitializer expr n
  if args.isNone && init.isNone then
    fail (.bareNew (← token))
  return .new (← markAt pos) ty args init

/-- An expression that no operator joins. -/
def primary (expr : Parser Expr) (n : Nat) : Parser Expr := do
  let pos ← place
  let first ← token
  match first with
  | .ident name =>
    skip
    return .ident (← markAt pos) name
  | .symbol .lParen =>
    skip
    let inner ← expr
    expect (.symbol .rParen)
    return .paren (← markAt pos) inner
  | .symbol .lBracket =>
    let receiver ← markAt pos
    skip
    let args ← arguments expr n .rBracket
    return .index (← markAt pos) (.missing receiver) args
  | .keyword .new =>
    skip
    construction expr n pos
  | _ =>
    match first.literal? with
    | some value =>
      skip
      return .literal (← markAt pos) value
    | none =>
      if first.endsOperand then return .missing (← markAt pos)
      else fail (.unexpected first)

/-! ### Whole expressions -/

/-- An expression with others nested in it at most `n` deep. -/
def exprNested : Nat → Parser Expr
  | 0 => do fail (.unexpected (← token))
  | n + 1 =>
    let inner := exprNested n
    let operand := do suffixes inner (n + 1) (← primary inner n)
    operators (signed operand (n + 1)) (n + 1) Level.all

/-- An expression. -/
def expr : Parser Expr := do exprNested (← remaining)

end Parser

end ListSugar
