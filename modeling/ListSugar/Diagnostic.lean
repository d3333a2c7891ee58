/-
What is wrong with a program that was read or desugared.

There are two kinds of defect: an operand that is missing, and a construction whose
type could not be inferred.  They are listed in the order of the nodes, a node
before its parts.
-/
import ListSugar.Program.Basic

namespace ListSugar

/-- Why a node cannot be compiled. -/
inductive Defect where
  | missingOperand
  | unresolvedType (ty : TypeExpr)
deriving Repr

/-- The wording of a defect. -/
def Defect.message : Defect → String
  | .missingOperand => "expected expression"
  | .unresolvedType ty => "cannot infer element type for 'new " ++ ty.render ++ "'"

/-- A defect and the place of its node. -/
structure Diagnostic where
  defect : Defect
  pos : Pos
deriving Repr

namespace Diagnostic

/-- The report of a defect. -/
def text (d : Diagnostic) : String := "error[" ++ d.pos.text ++ "]: " ++ d.defect.message

/-- The defect of a node itself. -/
def ofNode : Expr → Option Diagnostic
  | .missing m => some ⟨.missingOperand, m.pos⟩
  | .new m ty _ _ => if ty.isResolved then none else some ⟨.unresolvedType ty, m.pos⟩
  | _ => none

end Diagnostic

/-- All defects of a program. -/
def Program.diagnostics (p : Program) : List Diagnostic := p.nodes.filterMap Diagnostic.ofNode

end ListSugar
