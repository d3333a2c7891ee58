/-
The desugaring pass.

One walk over a tree offers every element access to be a list literal.  A literal
that is expanded is replaced by a construction, and its elements are taken as they
are: literals inside them stay.  Everything else is kept and its parts are walked,
left to right.

A pass needs two things besides the tree: the next number for a new node, and a
place to note what it saw.  `Pass` threads the first and collects the second, so
what a walk gives and notes depends on the tree alone, apart from the numbers.
-/
import ListSugar.Desugar.Report
import ListSugar.ListLiteral
import ListSugar.Program.Basic

namespace ListSugar.Desugar

/-- What a pass knows: the choices of the run and the types of the nodes. -/
structure Setting where
  options : Options
  typeOf : Expr → Ty

/-- What was seen at an element access. -/
inductive Visit where
  /-- It is no list literal. -/
  | access (pos : Pos)
  | literal (site : Site)

/-- The site of a visit, if it met a literal. -/
def Visit.site? : Visit → Option Site
  | .access _ => none
  | .literal site => some site

/-- The sites of several visits. -/
def sitesOf (visits : List Visit) : List Site := visits.filterMap Visit.site?

/-! ### Numbers and notes -/

/-- A result, the next number after it, and what was seen on the way. -/
structure Walked (α : Type) where
  value : α
  nextId : Nat
  visits : List Visit

/-- A walk that starts with the next unused number. -/
def Pass (α : Type) : Type := Nat → Walked α

namespace Pass

/-- Gives `a`, uses no number and notes nothing. -/
protected def pure {α : Type} (a : α) : Pass α := fun n => ⟨a, n, []⟩

/-- One walk after the other; the notes of the second follow those of the first. -/
protected def bind {α β : Type} (p : Pass α) (f : α → Pass β) : Pass β := fun n =>
  let first := p n
  let second := f first.value first.nextId
  ⟨second.value, second.nextId, first.visits ++ second.visits⟩

instance : Monad Pass where
  pure := Pass.pure
  bind := Pass.bind

/-- Notes a visit. -/
def note (v : Visit) : Pass Unit := fun n => ⟨(), n, [v]⟩

/-- Takes the next number. -/
def freshId : Pass Nat := fun n => ⟨n, n + 1, []⟩

/-- The construction of a container at `pos`, as a new node. -/
def construct (container : String) (ty : Ty) (pos : Pos) (elements : List Expr) : Pass Expr := do
  let id ← freshId
  return Expr.construct container ty ⟨id, pos⟩ elements

end Pass

/-! ### One node

A literal is judged before anything below it, by its shape and by the type of its first
element.  What is to be done and what is noted both follow from the verdict.
-/

/-- What is to be done with a node. -/
inductive Verdict where
  /-- It is no element access. -/
  | other
  /-- It is an element access and no list literal. -/
  | access
  /-- It is a list literal to be left as it is. -/
  | leave (site : Site)
  /-- It is a list literal to be expanded. -/
  | expand (site : Site) (elements : List Expr)

namespace Setting

/-- Whether a literal with elements of type `ty` is expanded. -/
def expands (s : Setting) (ty : Ty) : Bool :=
  ty.isKnown || s.options.onUnresolved = .proceed

/-- The verdict on a list literal at `pos` with the given elements. -/
def judgeElements (s : Setting) (pos : Pos) (elements : List Expr) : Verdict :=
  let ty := Expr.elementType s.typeOf elements
  if s.expands ty then .expand ⟨pos, elements.length, ty, .expanded⟩ elements
  else .leave ⟨pos, elements.length, ty, .abstained⟩

/-- The verdict on a node. -/
def judge (s : Setting) (e : Expr) : Verdict :=
  match e with
  | .index m _ args =>
    match Expr.delimitedArgs? args with
    | none => .access
    | some shape => s.judgeElements m.pos shape.elements
  | _ => .other

/-- The replacement of a node, if it is a list literal to be expanded. -/
def replace? (s : Setting) (e : Expr) : Pass (Option Expr) := do
  match s.judge e with
  | .other => return none
  | .access =>
    Pass.note (.access e.pos)
    return none
  | .leave site =>
    Pass.note (.literal site)
    return none
  | .expand site elements =>
    Pass.note (.literal site)
    return some (← Pass.construct s.options.container site.ty e.pos elements)

/-! ### Trees -/

mutual

/-- The expression with its list literals expanded. -/
def expr (s : Setting) : Expr → Pass Expr
  | .missing m => return .missing m
  | .literal m value => return .literal m value
  | .ident m name => return .ident m name
  | .paren m inner => return .paren m (← s.expr inner)
  | .unary m op operand => return .unary m op (← s.expr operand)
  | .binary m op left right => return .binary m op (← s.expr left) (← s.expr right)
  | .member m receiver name => return .member m (← s.expr receiver) name
  | .call m callee args => return .call m (← s.expr callee) (← s.exprs args)
  | .index m receiver args => do
    match ← s.replace? (.index m receiver args) with
    | some replacement => return replacement
    | none => return .index m (← s.expr receiver) (← s.exprs args)
  | .new m ty args init => return .new m ty (← s.part args) (← s.part init)

/-- Several expressions, one after the other. -/
def exprs (s : Setting) : List Expr → Pass (List Expr)
  | [] => return []
  | e :: rest => return (← s.expr e) :: (← s.exprs rest)

/-- One part of a construction. -/
def part (s : Setting) : Option (List Expr) → Pass (Option (List Expr))
  | none => return none
  | some es => return some (← s.exprs es)

end

/-- The initializer of a declaration. -/
def init (s : Setting) : Option Expr → Pass (Option Expr)
  | none => return none
  | some e => return some (← s.expr e)

mutual

/-- The statement with its list literals expanded. -/
def stmt (s : Setting) : Stmt → Pass Stmt
  | .declare ty name init line => return .declare ty name (← s.init init) line
  | .assign target value => return .assign (← s.expr target) (← s.expr value)
  | .expr value => return .expr (← s.expr value)
  | .block stmts => return .block (← s.stmts stmts)
  | .branch cond thenBranch elseBranch =>
    return .branch (← s.expr cond) (← s.stmt thenBranch) (← s.alternative elseBranch)
  | .foreach ty name iter body =>
    return .foreach ty name (← s.expr iter) (← s.stmt body)

/-- Several statements, one after the other. -/
def stmts (s : Setting) : List Stmt → Pass (List Stmt)
  | [] => return []
  | first :: rest => return (← s.stmt first) :: (← s.stmts rest)

/-- The alternative of a choice. -/
def alternative (s : Setting) : Option Stmt → Pass (Option Stmt)
  | none => return none
  | some other => return some (← s.stmt other)

end

end Setting

end ListSugar.Desugar
