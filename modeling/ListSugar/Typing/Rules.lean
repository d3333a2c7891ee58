/-
The type of an expression from the types of its parts.

Arithmetic on numbers gives a double if one of them is a double and an integer
otherwise, characters included; a sum with a string is a string.  Comparisons want
numbers, logical operators truth values; equality always gives a truth value.
Where a rule does not apply the type is unknown.
-/
import ListSugar.Expr.Basic
import ListSugar.Ty

namespace ListSugar.Typing

/-- The type of a literal. -/
def literal : Literal → Ty
  | .int _ => .int
  | .double _ => .double
  | .str _ => .str
  | .char _ => .char
  | .bool _ => .bool
  | .null => .unknown

/-- The type of an operator before an operand of type `ty`. -/
def unary : UnaryOp → Ty → Ty
  | .neg, .char => .int
  | .neg, .int => .int
  | .neg, .double => .double
  | .not, .bool => .bool
  | _, _ => .unknown

/-- The type of arithmetic between numbers. -/
def arithmetic (left right : Ty) : Ty :=
  if left.isNumeric && right.isNumeric then
    match left, right with
    | .double, _ => .double
    | _, .double => .double
    | _, _ => .int
  else .unknown

/-- The type of an operator between operands that are both present. -/
def binary (op : BinaryOp) (left right : Ty) : Ty :=
  match op with
  | .add => if left.isStr || right.isStr then .str else arithmetic left right
  | .sub => arithmetic left right
  | .mul => arithmetic left right
  | .div => arithmetic left right
  | .rem => arithmetic left right
  | .lt => if left.isNumeric && right.isNumeric then .bool else .unknown
  | .gt => if left.isNumeric && right.isNumeric then .bool else .unknown
  | .lte => if left.isNumeric && right.isNumeric then .bool else .unknown
  | .gte => if left.isNumeric && right.isNumeric then .bool else .unknown
  | .eq => .bool
  | .neq => .bool
  | .and => if left.isBool && right.isBool then .bool else .unknown
  | .or => if left.isBool && right.isBool then .bool else .unknown

/-- The type of a member of a value of type `receiver`: only the sizes of lists,
arrays and strings are known. -/
def member (receiver : Ty) (name : String) : Ty :=
  match receiver with
  | .list _ => if name = "Count" then .int else .unknown
  | .array _ => if name = "Length" then .int else .unknown
  | .str => if name = "Length" then .int else .unknown
  | _ => .unknown

/-- The type of a call: only the conversion to a string, which every value has, is
known. -/
def call (callee : Expr) (args : List Expr) : Ty :=
  match callee with
  | .member _ _ name => if name = "ToString" ∧ args.isEmpty then .str else .unknown
  | _ => .unknown

/-- The type of an element access: the element type for one integer argument. -/
def index (receiver : Ty) (args : List Ty) : Ty :=
  match args with
  | [.int] => receiver.element
  | _ => .unknown

end ListSugar.Typing
