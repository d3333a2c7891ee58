/-
The list literal inside an element access, and the construction that stands for it.

The grammar has no list literal, so a bracketed one is read as an element access
whose arguments are comparisons:

    [<>]          one argument   (_ < _) > _
    [<x>]         one argument   (_ < x) > _
    [<a, b, c>]   arguments      _ < a,  b,  c > _

`delimited?` recognises these shapes and `elements` takes the elements out of them.
Of one argument, only the operands of `<` are elements: two of them make it an
ordinary comparison, and what stands after `>` is not looked at.  Of several
arguments, the first gives its right operand and the last its left one.
-/
import ListSugar.Expr.Basic
import ListSugar.Ty

namespace ListSugar

/-- A comparison with its operands. -/
structure Comparison where
  mark : Mark
  left : Expr
  right : Expr
deriving Repr

/-- The shapes in which a list literal is read. -/
inductive Delimited where
  /-- One argument, which holds at most one element. -/
  | single (element : Option Expr)
  /-- Two arguments or more, between an opening `<` and a closing `>`. -/
  | range (opening : Comparison) (middles : List Expr) (closing : Comparison)
deriving Repr

namespace Delimited

/-- The elements, in the order in which they are written. -/
def elements : Delimited → List Expr
  | .single element => element.toList
  | .range opening middles closing => opening.right :: (middles ++ [closing.left])

end Delimited

namespace Expr

/-- The expression as a comparison by `op`. -/
def comparison? (op : BinaryOp) : Expr → Option Comparison
  | .binary m found left right => if found = op then some ⟨m, left, right⟩ else none
  | _ => none

/-- The operands of a comparison that are there. -/
def presentOperands (c : Comparison) : List Expr :=
  [c.left, c.right].filter fun e => !e.isMissing

/-- The shape of a single argument. -/
def single? (arg : Expr) : Option Delimited :=
  match arg.comparison? .gt with
  | none => none
  | some outer =>
    match [outer.left, outer.right].findSome? (comparison? .lt) with
    | none => none
    | some inner =>
      match presentOperands inner with
      | [] => some (.single none)
      | [only] => some (.single (some only))
      | _ => none

/-- The shape of several arguments, by the first and the last of them. -/
def range? (first : Expr) (middles : List Expr) (last : Expr) : Option Delimited :=
  match first.comparison? .lt, last.comparison? .gt with
  | some opening, some closing => some (.range opening middles closing)
  | _, _ => none

/-- The shape of a list of arguments. -/
def delimitedArgs? : List Expr → Option Delimited
  | [] => none
  | [only] => only.single?
  | first :: second :: rest =>
    range? first (second :: rest).dropLast ((second :: rest).getLast (by simp))

/-- The list literal that an expression is read from. -/
def delimited? : Expr → Option Delimited
  | .index _ _ args => delimitedArgs? args
  | _ => none

/-- The elements of the list literal that an expression is read from. -/
def literalElements? (e : Expr) : Option (List Expr) := e.delimited?.map Delimited.elements

/-! ### The construction

A literal with elements becomes `new C<T> { a, b, c }` for its container `C`, where `T` spells
the type of the first element.  An empty one becomes `new C<object>()`.
-/

/-- The type of the elements of a literal: that of the first one, and `object` if
there is none. -/
def elementType (typeOf : Expr → Ty) : List Expr → Ty
  | [] => .object
  | first :: _ => typeOf first

/-- The construction of a container with the given elements. -/
def construct (container : String) (ty : Ty) (m : Mark) : List Expr → Expr
  | [] => .new m (.named container [.simple "object"]) (some []) none
  | first :: rest => .new m (.named container [ty.toTypeExpr]) none (some (first :: rest))

end Expr

end ListSugar
