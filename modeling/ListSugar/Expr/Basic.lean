/-
Expressions of the host language.

Every node carries a mark: a number, by which the types of a program are looked up,
and a place.  An operand that the grammar wanted and the text does not have is a
node of its own, of no width; a bracketed list literal is read as an element
access around such nodes.

`children` gives the parts of a node in order and `nodes` all nodes below it, the
node itself first.
-/
import ListSugar.Double.Basic
import ListSugar.Pos
import ListSugar.TypeExpr.Basic

namespace ListSugar

/-- The number and the place of an expression node. -/
structure Mark where
  id : Nat
  pos : Pos
deriving DecidableEq, Repr

/-- A literal value. -/
inductive Literal where
  | int (value : Int)
  | double (value : Double)
  | str (value : String)
  | char (value : Char)
  | bool (value : Bool)
  | null
deriving DecidableEq, Repr

/-- Operators before their operand. -/
inductive UnaryOp where
  | neg
  | not
deriving DecidableEq, Repr

/-- Operators between two operands. -/
inductive BinaryOp where
  | add
  | sub
  | mul
  | div
  | rem
  | eq
  | neq
  | lt
  | gt
  | lte
  | gte
  | and
  | or
deriving DecidableEq, Repr

/-- An expression. -/
inductive Expr where
  /-- An operand that the grammar wanted and the text does not have. -/
  | missing (mark : Mark)
  | literal (mark : Mark) (value : Literal)
  | ident (mark : Mark) (name : String)
  /-- An expression in parentheses. -/
  | paren (mark : Mark) (inner : Expr)
  | unary (mark : Mark) (op : UnaryOp) (operand : Expr)
  | binary (mark : Mark) (op : BinaryOp) (left right : Expr)
  /-- A member of the receiver, by name. -/
  | member (mark : Mark) (receiver : Expr) (name : String)
  | call (mark : Mark) (callee : Expr) (args : List Expr)
  /-- An element access; the receiver of a bare bracket is missing. -/
  | index (mark : Mark) (receiver : Expr) (args : List Expr)
  /-- A construction with arguments, an initializer, or both. -/
  | new (mark : Mark) (ty : TypeExpr) (args init : Option (List Expr))
deriving Repr

namespace Expr

/-- The number and the place of a node. -/
def mark : Expr → Mark
  | .missing m => m
  | .literal m _ => m
  | .ident m _ => m
  | .paren m _ => m
  | .unary m _ _ => m
  | .binary m _ _ _ => m
  | .member m _ _ => m
  | .call m _ _ => m
  | .index m _ _ => m
  | .new m _ _ _ => m

/-- The number of a node. -/
def id (e : Expr) : Nat := e.mark.id

/-- The place of a node. -/
def pos (e : Expr) : Pos := e.mark.pos

/-- Whether the node stands for an operand that is not there. -/
def isMissing : Expr → Bool
  | .missing _ => true
  | _ => false

/-- The parts of a node, left to right. -/
def children : Expr → List Expr
  | .missing _ => []
  | .literal _ _ => []
  | .ident _ _ => []
  | .paren _ inner => [inner]
  | .unary _ _ operand => [operand]
  | .binary _ _ left right => [left, right]
  | .member _ receiver _ => [receiver]
  | .call _ callee args => callee :: args
  | .index _ receiver args => receiver :: args
  | .new _ _ args init => args.getD [] ++ init.getD []

mutual

/-- The node and all nodes below it, each before its parts. -/
def nodes : Expr → List Expr
  | .missing m => [.missing m]
  | .literal m value => [.literal m value]
  | .ident m name => [.ident m name]
  | .paren m inner => .paren m inner :: inner.nodes
  | .unary m op operand => .unary m op operand :: operand.nodes
  | .binary m op left right => .binary m op left right :: (left.nodes ++ right.nodes)
  | .member m receiver name => .member m receiver name :: receiver.nodes
  | .call m callee args => .call m callee args :: (callee.nodes ++ nodesOfAll args)
  | .index m receiver args => .index m receiver args :: (receiver.nodes ++ nodesOfAll args)
  | .new m ty args init => .new m ty args init :: (nodesOfPart args ++ nodesOfPart init)

/-- The nodes of several expressions, one after the other. -/
def nodesOfAll : List Expr → List Expr
  | [] => []
  | e :: rest => e.nodes ++ nodesOfAll rest

/-- The nodes of one part of a construction. -/
def nodesOfPart : Option (List Expr) → List Expr
  | none => []
  | some es => nodesOfAll es

end

end Expr

namespace BinaryOp

/-- How an operator is spelled. -/
def spelling : BinaryOp → String
  | .add => "+"
  | .sub => "-"
  | .mul => "*"
  | .div => "/"
  | .rem => "%"
  | .eq => "=="
  | .neq => "!="
  | .lt => "<"
  | .gt => ">"
  | .lte => "<="
  | .gte => ">="
  | .and => "&&"
  | .or => "||"

end BinaryOp

namespace UnaryOp

/-- How an operator is spelled. -/
def spelling : UnaryOp → String
  | .neg => "-"
  | .not => "!"

end UnaryOp

end ListSugar
