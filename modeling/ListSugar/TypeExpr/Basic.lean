/-
Types as they are written.

A type is a name with type arguments, or an array of another type.  One form is
never written in a source text: it stands for a type argument that could not be
inferred, and a type that holds it anywhere is not resolved.

The text of a type lists its type arguments as every text of the library lists items.
-/

namespace ListSugar

/-- A type as declarations and constructions write it. -/
inductive TypeExpr where
  /-- A name, with the type arguments between angle brackets if there are any. -/
  | named (name : String) (args : List TypeExpr)
  /-- An array of elements of one type. -/
  | array (element : TypeExpr)
  /-- Stands for a type argument that could not be inferred. -/
  | unresolved
deriving Repr

namespace TypeExpr

/-- A name without type arguments. -/
def simple (name : String) : TypeExpr := .named name []

mutual

/-- Whether every part of the type is known. -/
def isResolved : TypeExpr → Bool
  | .named _ args => allResolved args
  | .array element => element.isResolved
  | .unresolved => false

/-- Whether every one of the types is resolved. -/
def allResolved : List TypeExpr → Bool
  | [] => true
  | ty :: rest => ty.isResolved && allResolved rest

end

end TypeExpr

/-! ### Texts

Items stand in one line, with nothing behind the last of them.
-/

namespace Text

/-- The items with a comma and a space between them. -/
def listing : List String → String
  | [] => ""
  | [item] => item
  | item :: rest => item ++ ", " ++ listing rest

end Text

namespace TypeExpr

mutual

/-- The type as a source text writes it. -/
def render : TypeExpr → String
  | .named name [] => name
  | .named name (first :: rest) =>
    name ++ "<" ++ Text.listing (first.render :: renderAll rest) ++ ">"
  | .array element => element.render ++ "[]"
  | .unresolved => "?"

/-- The texts of several types. -/
def renderAll : List TypeExpr → List String
  | [] => []
  | ty :: rest => ty.render :: renderAll rest

end

end TypeExpr

end ListSugar
