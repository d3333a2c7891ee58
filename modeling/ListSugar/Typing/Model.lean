/-
A type for every expression node of a program.

One walk over the program gives each node its type and writes it down under the
node's number, a node after its parts; a call has its arguments written before its
callee.  The model keeps, for every number, the type that was written down last.
It is computed once: a node made later has no type in it.
-/
import Std.Data.TreeMap
import ListSugar.Program.Basic
import ListSugar.Typing.Rules
import ListSugar.Typing.Scope

namespace ListSugar

namespace Typing

/-- A number and the type written down for it. -/
abbrev Row := Nat × Ty

/-- A type and what was written down on the way to it. -/
structure Inferred (α : Type) where
  result : α
  rows : List Row

/-- The type of the node with the given mark, after the rows of its parts. -/
def conclude (m : Mark) (rows : List Row) (ty : Ty) : Inferred Ty :=
  ⟨ty, rows ++ [(m.id, ty)]⟩

mutual

/-- The type of an expression in a scope, and the rows of all its nodes. -/
def infer (scope : Scope) : Expr → Inferred Ty
  | .missing m => conclude m [] .unknown
  | .literal m value => conclude m [] (literal value)
  | .ident m name => conclude m [] (scope.lookup name)
  | .paren m inner =>
    let i := infer scope inner
    conclude m i.rows i.result
  | .unary m op operand =>
    let o := infer scope operand
    conclude m o.rows (unary op o.result)
  | .binary m op left right =>
    let l := infer scope left
    let r := infer scope right
    conclude m (l.rows ++ r.rows)
      (if left.isMissing || right.isMissing then .unknown else binary op l.result r.result)
  | .member m receiver name =>
    let r := infer scope receiver
    conclude m r.rows (member r.result name)
  | .call m callee args =>
    let a := inferAll scope args
    let c := infer scope callee
    conclude m (a.rows ++ c.rows) (call callee args)
  | .index m receiver args =>
    let r := infer scope receiver
    let a := inferAll scope args
    conclude m (r.rows ++ a.rows) (index r.result a.result)
  | .new m ty args init =>
    conclude m (inferPart scope args ++ inferPart scope init) (.ofTypeExpr ty)

/-- The types of several expressions, and the rows of all their nodes. -/
def inferAll (scope : Scope) : List Expr → Inferred (List Ty)
  | [] => ⟨[], []⟩
  | e :: rest =>
    let first := infer scope e
    let others := inferAll scope rest
    ⟨first.result :: others.result, first.rows ++ others.rows⟩

/-- The rows of one part of a construction. -/
def inferPart (scope : Scope) : Option (List Expr) → List Row
  | none => []
  | some es => (inferAll scope es).rows

end

/-- What happens in a block of its own; its declarations end with it. -/
def inBlock (scope : Scope) (body : Scope → Inferred Scope) : Inferred Scope :=
  let inner := body scope.enter
  ⟨inner.result.leave, inner.rows⟩

mutual

/-- The scope after a statement, and the rows of all its nodes. -/
def walk (scope : Scope) : Stmt → Inferred Scope
  | .declare ty name init _ =>
    let i := init.map (infer scope)
    let declared := match ty with
      | some ty => Ty.ofTypeExpr ty
      | none => (i.map Inferred.result).getD .unknown
    ⟨scope.declare name declared, (i.map Inferred.rows).getD []⟩
  | .assign target value => ⟨scope, (infer scope target).rows ++ (infer scope value).rows⟩
  | .expr value => ⟨scope, (infer scope value).rows⟩
  | .block stmts => inBlock scope fun inside => walkAll inside stmts
  | .branch cond thenBranch elseBranch =>
    let c := infer scope cond
    let t := inBlock scope fun inside => walk inside thenBranch
    let e : Inferred Scope := match elseBranch with
      | none => ⟨t.result, []⟩
      | some s => inBlock t.result fun inside => walk inside s
    ⟨e.result, c.rows ++ t.rows ++ e.rows⟩
  | .foreach ty name iter body =>
    let i := infer scope iter
    let declared := match ty with
      | some ty => Ty.ofTypeExpr ty
      | none => i.result.element
    let b := inBlock scope fun inside => walk (inside.declare name declared) body
    ⟨b.result, i.rows ++ b.rows⟩

/-- The scope after several statements, and the rows of all their nodes. -/
def walkAll (scope : Scope) : List Stmt → Inferred Scope
  | [] => ⟨scope, []⟩
  | s :: rest =>
    let first := walk scope s
    let others := walkAll first.result rest
    ⟨others.result, first.rows ++ others.rows⟩

end

end Typing

/-- The types of the nodes of a program, by number. -/
structure Model where
  types : Std.TreeMap Nat Ty

namespace Model

/-- The model that holds, for every number, its last row. -/
def ofRows (rows : List Typing.Row) : Model :=
  ⟨rows.foldl (fun types row => types.insert row.1 row.2) ∅⟩

/-- The model of a program. -/
def ofProgram (p : Program) : Model :=
  ofRows (Typing.walkAll .empty p.stmts).rows

/-- How many numbers have a type. -/
def size (m : Model) : Nat := m.types.size

/-- Whether no number has a type. -/
def isEmpty (m : Model) : Bool := m.types.isEmpty

/-- The type of the node with the given number, unknown if the model has none. -/
def typeOfId (m : Model) (id : Nat) : Ty := m.types.getD id .unknown

/-- The type of a node. -/
def typeOf (m : Model) (e : Expr) : Ty := m.typeOfId e.id

end Model

end ListSugar
