/-
The grammar without bounds.

The parsers of the library count down a bound in every loop and every nesting, so that
nothing has to be said for them to end.  Here the same grammar is written without one: a
loop goes on for as long as the tokens ask for another round.  Going round, and coming back
to a construct inside itself, is a call of that construct by name, so a reading is a tree of
single steps and calls, and nothing is said yet about how far the calls go.

`Ends` says that a reading comes to an end, in finitely many steps and calls, and with which
result.  There is at most one (`Ends.unique`), and none for a reading that goes on forever.

A reading runs over all the tokens it is given, also those behind an end mark: nothing is
cut off beforehand, and only the tokens that are seen keep it from stepping over the mark.
-/
import ListSugar.Program.Parser

namespace ListSugar.Unbounded

open ListSugar.Parser

/-! ### Readings

A reading is data: a step and what follows it, or a call by name and what follows it.  It
can therefore be written down for loops and nested constructs alike, and only the relation
`Ends` says what happens when it is carried out.
-/

/-- What a reading may go round or come back to. -/
inductive Construct where
  | type
  | typeItems
  | arraySuffixes (ty : TypeExpr)
  | expr
  | operatorsAfter (level : Level) (tighter : List Level) (left : Expr)
  | signed
  | suffixes (head : Expr)
  | items
  | elements
  | stmt
  | blockItems
  | stmtsToEnd

/-- What a construct is read as. -/
abbrev Construct.Tree : Construct → Type
  | .type | .arraySuffixes _ => TypeExpr
  | .typeItems => List TypeExpr
  | .expr | .operatorsAfter .. | .signed | .suffixes _ => Expr
  | .items | .elements => List Expr
  | .stmt => Stmt
  | .blockItems | .stmtsToEnd => List Stmt

/-- A reading: steps of the parsers, calls of constructs and attempts, each with what comes
after it. -/
inductive Reader : Type → Type 1 where
  | pure {α : Type} (a : α) : Reader α
  | step {α β : Type} (p : Parser β) (next : β → Reader α) : Reader α
  | call {α : Type} (c : Construct) (next : c.Tree → Reader α) : Reader α
  | attempt {α β : Type} (r : Reader (Option β)) (next : Option β → Reader α) : Reader α

/-- One reading after the other. -/
def Reader.bind {α β : Type} : Reader α → (α → Reader β) → Reader β
  | .pure a, k => k a
  | .step p next, k => .step p fun x => (next x).bind k
  | .call c next, k => .call c fun x => (next x).bind k
  | .attempt r next, k => .attempt r fun x => (next x).bind k

instance : Monad Reader where
  pure := .pure
  bind := .bind

/-- A single step of the parsers, which ends. -/
def step {α : Type} (p : Parser α) : Reader α := .step p .pure

/-- A construct, read as `Construct.body` says. -/
def call (c : Construct) : Reader c.Tree := .call c .pure

/-- The result of `r` if it has one; otherwise nothing was read. -/
def attempt {α : Type} (r : Reader (Option α)) : Reader (Option α) := .attempt r .pure

/-! ### Types -/

/-- A type. -/
def type : Reader TypeExpr := call .type

/-- One or more types with commas between them. -/
def typeItems : Reader (List TypeExpr) := call .typeItems

/-- The type `ty` inside as many arrays as pairs of brackets follow. -/
def arraySuffixes (ty : TypeExpr) : Reader TypeExpr := call (.arraySuffixes ty)

/-- Type arguments, if an opening angle bracket stands here. -/
def typeArguments : Reader (List TypeExpr) := do
  if ← step (accept .lt) then
    let args ← typeItems
    step (expect (.symbol .gt))
    return args
  else return []

def typeBody : Reader TypeExpr := do
  let head ← step (name .type)
  let args ← typeArguments
  arraySuffixes (.named head args)

def typeItemsBody : Reader (List TypeExpr) := do
  let first ← type
  if ← step (accept .comma) then
    return first :: (← typeItems)
  else return [first]

def arraySuffixesBody (ty : TypeExpr) : Reader TypeExpr := do
  if (← step token) = .symbol .lBracket ∧ (← step get).following = .symbol .rBracket then
    step skip
    step skip
    arraySuffixes (.array ty)
  else return ty

/-- A type and the name it declares, when the tokens begin a declaration. -/
def declarator : Reader (Option (TypeExpr × String)) := attempt do
  let ty ← type
  match ← step token with
  | .ident declared =>
    if followsDeclared (← step get).following then
      step skip
      return some (ty, declared)
    else return none
  | _ => return none

/-! ### Expressions -/

/-- An expression. -/
def expr : Reader Expr := call .expr

/-- The operators of one level after their first operand. -/
def operatorsAfter (level : Level) (tighter : List Level) (left : Expr) : Reader Expr :=
  call (.operatorsAfter level tighter left)

/-- An operand with the operators before it. -/
def signed : Reader Expr := call .signed

/-- The members, calls and element accesses after an expression. -/
def suffixes (head : Expr) : Reader Expr := call (.suffixes head)

/-- One or more expressions with commas between them. -/
def items : Reader (List Expr) := call .items

/-- The elements of an initializer; a comma may stand after the last one. -/
def elements : Reader (List Expr) := call .elements

/-- Expressions whose binary operators are of the given levels, the loosest first. -/
def operators : List Level → Reader Expr
  | [] => signed
  | level :: tighter => do
    let first ← operators tighter
    operatorsAfter level tighter first

def operatorsAfterBody (level : Level) (tighter : List Level) (left : Expr) : Reader Expr := do
  match level (← step token) with
  | none => return left
  | some op =>
    step skip
    let right ← operators tighter
    operatorsAfter level tighter (.binary (← step (markAt left.pos)) op left right)

/-- Arguments up to and with their closing bracket. -/
def arguments (close : Symbol) : Reader (List Expr) := do
  if ← step (accept close) then return []
  let args ← items
  step (expect (.symbol close))
  return args

def suffixesBody (head : Expr) : Reader Expr := do
  match ← step token with
  | .symbol .dot =>
    step skip
    let name ← step (name .member)
    suffixes (.member (← step (markAt head.pos)) head name)
  | .symbol .lParen =>
    step skip
    let args ← arguments .rParen
    suffixes (.call (← step (markAt head.pos)) head args)
  | .symbol .lBracket =>
    step skip
    let args ← arguments .rBracket
    suffixes (.index (← step (markAt head.pos)) head args)
  | _ => return head

def itemsBody : Reader (List Expr) := do
  let first ← expr
  if ← step (accept .comma) then
    return first :: (← items)
  else return [first]

def elementsBody : Reader (List Expr) := do
  match ← step token with
  | .symbol .rBrace => return []
  | .eof => return []
  | _ =>
    let first ← expr
    if ← step (accept .comma) then
      return first :: (← elements)
    else return [first]

/-- The arguments of a construction, if an opening parenthesis stands here. -/
def constructionArguments : Reader (Option (List Expr)) := do
  if ← step (accept .lParen) then
    return some (← arguments .rParen)
  else return none

/-- The initializer of a construction, if an opening brace stands here. -/
def constructionInitializer : Reader (Option (List Expr)) := do
  if ← step (accept .lBrace) then
    let found ← elements
    step (expect (.symbol .rBrace))
    return some found
  else return none

/-- A construction, after the keyword; it needs arguments or an initializer. -/
def construction (pos : Pos) : Reader Expr := do
  let ty ← type
  let args ← constructionArguments
  let init ← constructionInitializer
  if args.isNone && init.isNone then
    step (fail (.bareNew (← step token)))
  else return .new (← step (markAt pos)) ty args init

/-- An expression that no operator joins. -/
def primary : Reader Expr := do
  let pos ← step place
  let first ← step token
  match first with
  | .ident name =>
    step skip
    return .ident (← step (markAt pos)) name
  | .symbol .lParen =>
    step skip
    let inner ← expr
    step (expect (.symbol .rParen))
    return .paren (← step (markAt pos)) inner
  | .symbol .lBracket =>
    let receiver ← step (markAt pos)
    step skip
    let args ← arguments .rBracket
    return .index (← step (markAt pos)) (.missing receiver) args
  | .keyword .new =>
    step skip
    construction pos
  | _ =>
    match first.literal? with
    | some value =>
      step skip
      return .literal (← step (markAt pos)) value
    | none =>
      if first.endsOperand then return .missing (← step (markAt pos))
      else step (fail (.unexpected first))

/-- A primary expression with its suffixes. -/
def operand : Reader Expr := do
  suffixes (← primary)

def signedBody : Reader Expr := do
  match (← step token).unaryOp? with
  | none => operand
  | some op =>
    let pos ← step place
    step skip
    let inner ← signed
    return .unary (← step (markAt pos)) op inner

/-! ### Statements -/

/-- A statement. -/
def stmt : Reader Stmt := call .stmt

/-- The statements of a block up to and with its closing brace. -/
def blockItems : Reader (List Stmt) := call .blockItems

/-- Statements up to the end mark. -/
def stmtsToEnd : Reader (List Stmt) := call .stmtsToEnd

/-- An assignment or an expression, up to its semicolon. -/
def simpleStmt : Reader Stmt := do
  let head ← expr
  if ← step (accept .assign) then
    let value ← expr
    step (expect (.symbol .semi))
    return .assign head value
  else
    step (expect (.symbol .semi))
    return .expr head

/-- A declaration without a type, after the word `var` on the given line. -/
def varStmt (line : Nat) : Reader Stmt := do
  let declared ← step (name .variable)
  unless ← step (accept .assign) do
    step (fail (.uninitialized declared))
  let init ← expr
  step (expect (.symbol .semi))
  return .declare none declared (some init) line

/-- A declaration with a type, after the declared name. -/
def typedStmt (ty : TypeExpr) (declared : String) (line : Nat) : Reader Stmt := do
  let init ← if ← step (accept .assign) then some <$> expr else pure none
  step (expect (.symbol .semi))
  return .declare (some ty) declared init line

/-- The declared type and the name of a loop variable. -/
def loopVariable : Reader (Option TypeExpr × String) := do
  if (← step token) = .keyword .var then
    step skip
    return (none, ← step (name .loopVariable))
  else
    match ← declarator with
    | some (ty, declared) => return (some ty, declared)
    | none => step (fail .noLoopVariable)

/-- A choice, after the word `if`. -/
def branchStmt : Reader Stmt := do
  step (expect (.symbol .lParen))
  let cond ← expr
  step (expect (.symbol .rParen))
  let thenBranch ← stmt
  if (← step token) = .keyword .else_ then
    step skip
    return .branch cond thenBranch (some (← stmt))
  else return .branch cond thenBranch none

/-- A loop, after the word `foreach`. -/
def foreachStmt : Reader Stmt := do
  step (expect (.symbol .lParen))
  let (ty, declared) ← loopVariable
  step (expect (.keyword .in_))
  let iter ← expr
  step (expect (.symbol .rParen))
  let body ← stmt
  return .foreach ty declared iter body

def stmtBody : Reader Stmt := do
  let line := (← step place).line
  match ← step token with
  | .symbol .lBrace =>
    step skip
    return .block (← blockItems)
  | .keyword .if_ =>
    step skip
    branchStmt
  | .keyword .foreach =>
    step skip
    foreachStmt
  | .keyword .var =>
    step skip
    varStmt line
  | .ident _ =>
    match ← declarator with
    | some (ty, declared) => typedStmt ty declared line
    | none => simpleStmt
  | _ => simpleStmt

def blockItemsBody : Reader (List Stmt) := do
  if ← step (accept .rBrace) then return []
  if (← step token) = .eof then
    step (fail .openBlock)
  let first ← stmt
  return first :: (← blockItems)

def stmtsToEndBody : Reader (List Stmt) := do
  if (← step token) = .eof then return []
  let first ← stmt
  return first :: (← stmtsToEnd)

/-- A program: statements up to the end mark. -/
def program : Reader Program := do
  let stmts ← stmtsToEnd
  return ⟨stmts, (← step get).nextId⟩

/-! ### Ends of readings

A call ends if the body of the construct ends, and then goes on with the result.  A
reading that would go on forever has no derivation, so to end is something to be shown,
and it is shown by comparison with the parsers that have a bound.
-/

/-- How a construct is read. -/
def Construct.body : (c : Construct) → Reader c.Tree
  | .type => typeBody
  | .typeItems => typeItemsBody
  | .arraySuffixes ty => arraySuffixesBody ty
  | .expr => operators Level.all
  | .operatorsAfter level tighter left => operatorsAfterBody level tighter left
  | .signed => signedBody
  | .suffixes head => suffixesBody head
  | .items => itemsBody
  | .elements => elementsBody
  | .stmt => stmtBody
  | .blockItems => blockItemsBody
  | .stmtsToEnd => stmtsToEndBody

/-- The reading ends, begun at the given stream, with the given result. -/
inductive Ends : {α : Type} → Reader α → TokenStream →
    EStateM.Result ParseError TokenStream α → Prop where
  | pure {α : Type} {a : α} {s : TokenStream} : Ends (.pure a) s (.ok a s)
  | step_ok {α β : Type} {p : Parser β} {next : β → Reader α} {s t : TokenStream} {b : β}
      {x : EStateM.Result ParseError TokenStream α} (hp : p s = .ok b t)
      (hnext : Ends (next b) t x) : Ends (.step p next) s x
  | step_error {α β : Type} {p : Parser β} {next : β → Reader α} {s t : TokenStream}
      {e : ParseError} (hp : p s = .error e t) : Ends (.step p next) s (.error e t)
  | call_ok {α : Type} {c : Construct} {next : c.Tree → Reader α} {s t : TokenStream}
      {b : c.Tree} {x : EStateM.Result ParseError TokenStream α}
      (hbody : Ends c.body s (.ok b t)) (hnext : Ends (next b) t x) : Ends (.call c next) s x
  | call_error {α : Type} {c : Construct} {next : c.Tree → Reader α} {s t : TokenStream}
      {e : ParseError} (hbody : Ends c.body s (.error e t)) :
      Ends (.call c next) s (.error e t)
  | attempt_ok {α β : Type} {r : Reader (Option β)} {next : Option β → Reader α}
      {s t : TokenStream} {b : β} {x : EStateM.Result ParseError TokenStream α}
      (hr : Ends r s (.ok (some b) t)) (hnext : Ends (next (some b)) t x) :
      Ends (.attempt r next) s x
  | attempt_none {α β : Type} {r : Reader (Option β)} {next : Option β → Reader α}
      {s t : TokenStream} {x : EStateM.Result ParseError TokenStream α}
      (hr : Ends r s (.ok none t)) (hnext : Ends (next none) s x) : Ends (.attempt r next) s x
  | attempt_error {α β : Type} {r : Reader (Option β)} {next : Option β → Reader α}
      {s t : TokenStream} {e : ParseError} {x : EStateM.Result ParseError TokenStream α}
      (hr : Ends r s (.error e t)) (hnext : Ends (next none) s x) : Ends (.attempt r next) s x

namespace Ends

variable {α β : Type} {r : Reader α} {s t : TokenStream}

/-- **A reading ends in one way only.** -/
theorem unique {x y : EStateM.Result ParseError TokenStream α} (hx : Ends r s x)
    (hy : Ends r s y) : x = y := by
  induction hx with
  | pure =>
    cases hy
    rfl
  | step_ok hp hnext ih =>
    cases hy with
    | step_ok hp' hnext' =>
      cases hp.symm.trans hp'
      exact ih hnext'
    | step_error hp' => cases hp.symm.trans hp'
  | step_error hp =>
    cases hy with
    | step_ok hp' hnext' => cases hp.symm.trans hp'
    | step_error hp' =>
      cases hp.symm.trans hp'
      rfl
  | call_ok hbody hnext ihbody ihnext =>
    cases hy with
    | call_ok hbody' hnext' =>
      cases ihbody hbody'
      exact ihnext hnext'
    | call_error hbody' => cases ihbody hbody'
  | call_error hbody ih =>
    cases hy with
    | call_ok hbody' hnext' => cases ih hbody'
    | call_error hbody' =>
      cases ih hbody'
      rfl
  | attempt_ok hr hnext ihr ihnext =>
    cases hy with
    | attempt_ok hr' hnext' =>
      cases ihr hr'
      exact ihnext hnext'
    | attempt_none hr' hnext' => cases ihr hr'
    | attempt_error hr' hnext' => cases ihr hr'
  | attempt_none hr hnext ihr ihnext =>
    cases hy with
    | attempt_ok hr' hnext' => cases ihr hr'
    | attempt_none hr' hnext' => exact ihnext hnext'
    | attempt_error hr' hnext' => cases ihr hr'
  | attempt_error hr hnext ihr ihnext =>
    cases hy with
    | attempt_ok hr' hnext' => cases ihr hr'
    | attempt_none hr' hnext' => cases ihr hr'
    | attempt_error hr' hnext' => exact ihnext hnext'

/-- A reading that ends is followed by the next one. -/
theorem bind {a : α} {k : α → Reader β} {y : EStateM.Result ParseError TokenStream β}
    (h : Ends r s (.ok a t)) (hk : Ends (k a) t y) : Ends (r >>= k) s y := by
  generalize hx : (.ok a t : EStateM.Result ParseError TokenStream α) = x at h
  induction h with
  | pure =>
    cases hx
    exact hk
  | step_ok hp hnext ih => exact .step_ok hp (ih hk hx)
  | step_error hp => cases hx
  | call_ok hbody hnext ihbody ihnext => exact .call_ok hbody (ihnext hk hx)
  | call_error hbody ih => cases hx
  | attempt_ok hr hnext ihr ihnext => exact .attempt_ok hr (ihnext hk hx)
  | attempt_none hr hnext ihr ihnext => exact .attempt_none hr (ihnext hk hx)
  | attempt_error hr hnext ihr ihnext => exact .attempt_error hr (ihnext hk hx)

/-- Nothing comes after a reading that fails. -/
theorem bind_error {e : ParseError} {k : α → Reader β} (h : Ends r s (.error e t)) :
    Ends (r >>= k) s (.error e t) := by
  generalize hx : (.error e t : EStateM.Result ParseError TokenStream α) = x at h
  induction h with
  | pure => cases hx
  | step_ok hp hnext ih => exact .step_ok hp (ih hx)
  | step_error hp =>
    cases hx
    exact .step_error hp
  | call_ok hbody hnext ihbody ihnext => exact .call_ok hbody (ihnext hx)
  | call_error hbody ih =>
    cases hx
    exact .call_error hbody
  | attempt_ok hr hnext ihr ihnext => exact .attempt_ok hr (ihnext hx)
  | attempt_none hr hnext ihr ihnext => exact .attempt_none hr (ihnext hx)
  | attempt_error hr hnext ihr ihnext => exact .attempt_error hr (ihnext hx)

/-- Steps one after the other are a step of their own. -/
theorem step_bind {γ : Type} {p : Parser α} {f : α → Parser β} {k : β → Reader γ}
    {x : EStateM.Result ParseError TokenStream γ}
    (h : Ends (step p >>= fun a => step (f a) >>= k) s x) : Ends (step (p >>= f) >>= k) s x := by
  have h : Ends (.step p fun a => .step (f a) k) s x := h
  show Ends (.step (p >>= f) k) s x
  have hrun : (p >>= f) s = EStateM.bind p f s := rfl
  unfold EStateM.bind at hrun
  cases h with
  | step_error hp => exact .step_error (by rw [hrun, hp])
  | step_ok hp hnext =>
    cases hnext with
    | step_error hf => exact .step_error (by rw [hrun, hp]; exact hf)
    | step_ok hf hk => exact .step_ok (by rw [hrun, hp]; exact hf) hk

end Ends

end ListSugar.Unbounded
