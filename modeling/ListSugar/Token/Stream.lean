/-
Reading a list of tokens.

A stream holds the tokens before the end mark, the place of that mark, and the next
unused number for an expression.  A parser reads from a stream and fails with an
error at the token it stopped at; it keeps the stream also when it fails, so a
caller can go on from there.

The grammar has loops (arguments, operators, statements) and nests.  Both are
bounded by the unread tokens: a loop goes round again, and a nested construct
begins, only after a token was used up.  Where a function takes a bound, the number
of unread tokens is enough, and at zero there is only the end mark to see.
-/
import ListSugar.Token.Basic

namespace ListSugar

/-- What a name was wanted for. -/
inductive NameRole where
  | type
  | member
  | variable
  | loopVariable
deriving DecidableEq, Repr

/-- The wording of a wanted name. -/
def NameRole.text : NameRole → String
  | .type => "type name"
  | .member => "member name after '.'"
  | .variable => "variable name after 'var'"
  | .loopVariable => "loop variable name"

/-- Why tokens form no program. -/
inductive ParseFault where
  /-- Another token had to stand here. -/
  | expected (wanted found : Token)
  /-- A name had to stand here. -/
  | expectedName (role : NameRole) (found : Token)
  /-- A variable declared by `var` has no initializer. -/
  | uninitialized (name : String)
  /-- A construction has neither arguments nor an initializer. -/
  | bareNew (found : Token)
  /-- A loop does not declare its variable. -/
  | noLoopVariable
  /-- A block without its closing brace. -/
  | openBlock
  /-- A token that begins no expression. -/
  | unexpected (found : Token)
deriving DecidableEq, Repr

/-- The wording of a fault. -/
def ParseFault.message : ParseFault → String
  | .expected wanted found => "Expected " ++ wanted.text ++ ", found " ++ found.text
  | .expectedName role found => "Expected " ++ role.text ++ ", found " ++ found.text
  | .uninitialized name => "Implicitly-typed variable '" ++ name ++ "' must be initialized"
  | .bareNew found =>
    "Expected '(' or '\x7b' after type in new expression, found " ++ found.text
  | .noLoopVariable => "Expected 'var' or a type in foreach"
  | .openBlock => "Unterminated block: expected '\x7d'"
  | .unexpected found => "Unexpected token in expression: " ++ found.text

/-- A fault and the place of the token it was seen at. -/
structure ParseError where
  fault : ParseFault
  pos : Pos
deriving DecidableEq, Repr

/-- The report of a fault. -/
def ParseError.text (e : ParseError) : String :=
  "error[" ++ e.pos.text ++ "]: " ++ e.fault.message

/-- Tokens to be read, and the numbers not yet given to expressions. -/
structure TokenStream where
  /-- The tokens before the end mark. -/
  unread : List Located
  /-- The place of the end mark. -/
  stop : Pos
  /-- The first number not yet given to an expression. -/
  nextId : Nat
deriving DecidableEq, Repr

namespace TokenStream

/-- The place of the end of a list of tokens: that of its first end mark, or else
that of its last token. -/
def stopOf (tokens : List Located) : Pos :=
  match tokens.find? (·.token = .eof) with
  | some mark => mark.pos
  | none => (tokens.getLast?.map Located.pos).getD .start

/-- The stream of the tokens before the first end mark. -/
def ofTokens (tokens : List Located) : TokenStream :=
  ⟨tokens.takeWhile (·.token ≠ .eof), stopOf tokens, 0⟩

/-- The token to be read next. -/
def current (s : TokenStream) : Located := s.unread.headD ⟨.eof, s.stop⟩

/-- The token after the current one. -/
def following (s : TokenStream) : Token := ((s.unread.drop 1).headD ⟨.eof, s.stop⟩).token

/-- The stream behind its current token. -/
def advance (s : TokenStream) : TokenStream := { s with unread := s.unread.drop 1 }

end TokenStream

/-- Reads from a stream, and keeps it also when it fails. -/
abbrev Parser := EStateM ParseError TokenStream

namespace Parser

/-- The current token. -/
def token : Parser Token := return (← get).current.token

/-- The place of the current token. -/
def place : Parser Pos := return (← get).current.pos

/-- How many tokens are unread. -/
def remaining : Parser Nat := return (← get).unread.length

/-- Uses up the current token. -/
def skip : Parser Unit := modify TokenStream.advance

/-- Fails at the current token. -/
def fail {α : Type} (fault : ParseFault) : Parser α := do
  throw ⟨fault, ← place⟩

/-- Whether the current token is `sign`, which is then used up. -/
def accept (sign : Symbol) : Parser Bool := do
  if (← token) = .symbol sign then
    skip
    return true
  else return false

/-- Uses up the current token, which has to be `wanted`. -/
def expect (wanted : Token) : Parser Unit := do
  let found ← token
  if found = wanted then skip else fail (.expected wanted found)

/-- Reads a name. -/
def name (role : NameRole) : Parser String := do
  match ← token with
  | .ident text =>
    skip
    return text
  | found => fail (.expectedName role found)

/-- A number that no expression has yet. -/
def freshId : Parser Nat :=
  modifyGet fun s => (s.nextId, { s with nextId := s.nextId + 1 })

/-- The result of `p` if it has one; otherwise nothing was read. -/
def attempt {α : Type} (p : Parser (Option α)) : Parser (Option α) := fun s =>
  match p s with
  | .ok (some a) next => .ok (some a) next
  | .ok none _ => .ok none s
  | .error _ _ => .ok none s

/-- One or more items with commas between them. -/
def commaSeparated {α : Type} (item : Parser α) : Nat → Parser (List α)
  | 0 => return [← item]
  | n + 1 => do
    let first ← item
    if ← accept .comma then
      return first :: (← commaSeparated item n)
    else return [first]

end Parser

end ListSugar
