/-
The text of an expression.

Binary operators stand between single spaces, and a missing operand leaves neither
text nor space behind.  Nothing is put in parentheses that was not written so: the
tree of an expression that was read keeps its parentheses as nodes.
-/
import ListSugar.Double.Printer
import ListSugar.Expr.Basic
import ListSugar.Text.Quoted

namespace ListSugar

/-- A literal as a source text writes it. -/
def Literal.render : Literal → String
  | .int value => toString value
  | .double value => value.sourceText
  | .str value => Text.sourceQuoted .string value.toList
  | .char value => Text.sourceQuoted .character [value]
  | .bool value => toString value
  | .null => "null"

namespace Expr

/-- An operator between the texts of its operands, of which each may be empty. -/
def renderBinary (op : BinaryOp) (left right : String) : String :=
  (if left = "" then "" else left ++ " ") ++ op.spelling ++ (if right = "" then "" else " " ++ right)

/-- The initializer of a construction, from the texts of its elements. -/
def renderInitializer : List String → String
  | [] => " \x7b \x7d"
  | items => " \x7b " ++ Text.listing items ++ " \x7d"

mutual

/-- The expression as a source text writes it. -/
def render : Expr → String
  | .missing _ => ""
  | .literal _ value => value.render
  | .ident _ name => name
  | .paren _ inner => "(" ++ inner.render ++ ")"
  | .unary _ op operand => op.spelling ++ operand.render
  | .binary _ op left right => renderBinary op left.render right.render
  | .member _ receiver name => receiver.render ++ "." ++ name
  | .call _ callee args => callee.render ++ "(" ++ Text.listing (renderAll args) ++ ")"
  | .index _ receiver args => receiver.render ++ "[" ++ Text.listing (renderAll args) ++ "]"
  | .new _ ty args init =>
    "new " ++ ty.render
      ++ (match args with
        | none => ""
        | some es => "(" ++ Text.listing (renderAll es) ++ ")")
      ++ (match init with
        | none => ""
        | some es => renderInitializer (renderAll es))

/-- The texts of several expressions. -/
def renderAll : List Expr → List String
  | [] => []
  | e :: rest => e.render :: renderAll rest

end

end Expr

end ListSugar
