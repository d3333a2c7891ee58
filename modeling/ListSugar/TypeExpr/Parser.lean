/-
Reading a type.

A type is a name, type arguments in angle brackets if there are any, and a pair of
brackets for each array around it.  No expression is numbered on the way, so an
attempt to read a declaration leaves no trace when it is given up.

As everywhere in the grammar, the bounds are never below the number of unread
tokens, and each round of a loop and each nested type uses one up.
-/
import ListSugar.Token.Stream
import ListSugar.TypeExpr.Basic

namespace ListSugar.Parser

/-- The type `ty` inside as many arrays as pairs of brackets follow. -/
def arraySuffixes : Nat → TypeExpr → Parser TypeExpr
  | 0, ty => return ty
  | n + 1, ty => do
    if (← token) = .symbol .lBracket ∧ (← get).following = .symbol .rBracket then
      skip
      skip
      arraySuffixes n (.array ty)
    else return ty

/-- Type arguments, if an opening angle bracket stands here. -/
def typeArguments (type : Parser TypeExpr) (n : Nat) : Parser (List TypeExpr) := do
  if ← accept .lt then
    let args ← commaSeparated type n
    expect (.symbol .gt)
    return args
  else return []

/-- A type with type arguments nested at most `n` deep. -/
def typeNested : Nat → Parser TypeExpr
  | 0 => do fail (.expectedName .type (← token))
  | n + 1 => do
    let head ← name .type
    let args ← typeArguments (typeNested n) n
    arraySuffixes n (.named head args)

/-- A type. -/
def type : Parser TypeExpr := do typeNested (← remaining)

/-- Whether `t` can follow the name that a declaration declares. -/
def followsDeclared : Token → Bool
  | .symbol .assign => true
  | .symbol .semi => true
  | .keyword .in_ => true
  | _ => false

/-- A type and the name it declares, when the tokens begin a declaration. -/
def declarator : Parser (Option (TypeExpr × String)) := attempt do
  let ty ← type
  match ← token with
  | .ident declared =>
    if followsDeclared (← get).following then
      skip
      return some (ty, declared)
    else return none
  | _ => return none

end ListSugar.Parser
