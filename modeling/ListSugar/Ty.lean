/-
Static types.

A type is one of six predefined types, a list, an array, any other named type, or
unknown.  Written types are read by `ofTypeExpr`, which knows the predefined names
in both of their spellings, and spelled by `toTypeExpr`.
-/
import ListSugar.TypeExpr.Basic

namespace ListSugar

/-- A static type. -/
inductive Ty where
  | int
  | double
  | bool
  | char
  | str
  /-- The type of every value; also the element type of an empty list literal. -/
  | object
  | list (element : Ty)
  | array (element : Ty)
  /-- Any other named type, with its type arguments. -/
  | named (name : String) (args : List Ty)
  /-- No type could be determined. -/
  | unknown
deriving Repr

namespace Ty

/-- Whether a type could be determined. -/
def isKnown : Ty → Bool
  | .unknown => false
  | _ => true

/-- Whether arithmetic works on the type. -/
def isNumeric : Ty → Bool
  | .int => true
  | .double => true
  | .char => true
  | _ => false

/-- Whether this is the type of truth values. -/
def isBool : Ty → Bool
  | .bool => true
  | _ => false

/-- Whether this is the type of strings. -/
def isStr : Ty → Bool
  | .str => true
  | _ => false

/-- The type of the elements that a loop or an element access sees. -/
def element : Ty → Ty
  | .list inner => inner
  | .array inner => inner
  | .str => .char
  | _ => .unknown

mutual

/-- The type as reports show it. -/
def text : Ty → String
  | .int => "int"
  | .double => "double"
  | .bool => "bool"
  | .char => "char"
  | .str => "string"
  | .object => "object"
  | .list inner => "List<" ++ inner.text ++ ">"
  | .array inner => inner.text ++ "[]"
  | .named name [] => name
  | .named name (first :: rest) =>
    name ++ "<" ++ Text.listing (first.text :: textAll rest) ++ ">"
  | .unknown => "?"

/-- The texts of several types. -/
def textAll : List Ty → List String
  | [] => []
  | ty :: rest => ty.text :: textAll rest

end

/-! ### Written types -/

/-- The type that a name without type arguments means. -/
def ofName (name : String) : Ty :=
  match name with
  | "int" => .int
  | "Int32" => .int
  | "double" => .double
  | "Double" => .double
  | "bool" => .bool
  | "Boolean" => .bool
  | "char" => .char
  | "Char" => .char
  | "string" => .str
  | "String" => .str
  | "object" => .object
  | "Object" => .object
  | other => .named other []

/-- The type that a name with type arguments means: `List` of one argument is the
list, every other name stands for itself. -/
def ofGeneric (name : String) : List Ty → Ty
  | [] => ofName name
  | [arg] => if name = "List" then .list arg else .named name [arg]
  | args => .named name args

mutual

/-- The type that a written type means. -/
def ofTypeExpr : TypeExpr → Ty
  | .unresolved => .unknown
  | .array element => .array (ofTypeExpr element)
  | .named name args => ofGeneric name (ofTypeExprs args)

/-- The types that several written types mean. -/
def ofTypeExprs : List TypeExpr → List Ty
  | [] => []
  | ty :: rest => ofTypeExpr ty :: ofTypeExprs rest

end

mutual

/-- The type as a construction spells it. -/
def toTypeExpr : Ty → TypeExpr
  | .int => .simple "int"
  | .double => .simple "double"
  | .bool => .simple "bool"
  | .char => .simple "char"
  | .str => .simple "string"
  | .object => .simple "object"
  | .list inner => .named "List" [inner.toTypeExpr]
  | .array inner => .array inner.toTypeExpr
  | .named name args => .named name (toTypeExprs args)
  | .unknown => .unresolved

/-- Several types as constructions spell them. -/
def toTypeExprs : List Ty → List TypeExpr
  | [] => []
  | ty :: rest => ty.toTypeExpr :: toTypeExprs rest

end

end Ty

end ListSugar
