/-
The canonical layout of a program.

One statement a line, four spaces for each level, braces on lines of their own.  A
block that is the body of a choice or a loop stands as deep as its head; any other
body stands one level deeper.
-/
import ListSugar.Expr.Printer
import ListSugar.Program.Basic

namespace ListSugar

namespace Stmt

/-- One line of text at the given depth. -/
def line (depth : Nat) (text : String) : String :=
  String.ofList (List.replicate (4 * depth) ' ') ++ text ++ "\n"

/-- A declared type, or `var` where there is none. -/
def typeOrVar : Option TypeExpr → String
  | none => "var"
  | some ty => ty.render

/-- How deep a body stands under a head at the given depth. -/
def bodyDepth (depth : Nat) : Stmt → Nat
  | .block _ => depth
  | _ => depth + 1

mutual

/-- The lines of a statement at the given depth. -/
def renderAt (depth : Nat) : Stmt → String
  | .declare ty name none _ => line depth (typeOrVar ty ++ " " ++ name ++ ";")
  | .declare ty name (some init) _ =>
    line depth (typeOrVar ty ++ " " ++ name ++ " = " ++ init.render ++ ";")
  | .assign target value => line depth (target.render ++ " = " ++ value.render ++ ";")
  | .expr value => line depth (value.render ++ ";")
  | .block stmts =>
    line depth "\x7b" ++ renderAllAt (depth + 1) stmts ++ line depth "\x7d"
  | .branch cond thenBranch elseBranch =>
    line depth ("if (" ++ cond.render ++ ")")
      ++ renderAt (bodyDepth depth thenBranch) thenBranch
      ++ (match elseBranch with
        | none => ""
        | some s => line depth "else" ++ renderAt (bodyDepth depth s) s)
  | .foreach ty name iter body =>
    line depth ("foreach (" ++ typeOrVar ty ++ " " ++ name ++ " in " ++ iter.render ++ ")")
      ++ renderAt (bodyDepth depth body) body

/-- The lines of several statements at the given depth. -/
def renderAllAt (depth : Nat) : List Stmt → String
  | [] => ""
  | s :: rest => renderAt depth s ++ renderAllAt depth rest

end

end Stmt

/-- The canonical text of a program. -/
def Program.render (p : Program) : String := Stmt.renderAllAt 0 p.stmts

end ListSugar
