/-
Statements and programs of the host language.

`Stmt.roots` gives the expressions of a statement in the order in which they are
written, and `Program.nodes` every expression node of a program.  What a pass says
about nodes is said over these lists.
-/
import ListSugar.Expr.Basic

namespace ListSugar

/-- A statement. -/
inductive Stmt where
  /-- A declaration of a variable: without a type it is declared by `var`.  The line is
  that of its first token. -/
  | declare (ty : Option TypeExpr) (name : String) (init : Option Expr) (line : Nat)
  | assign (target value : Expr)
  | expr (value : Expr)
  | block (stmts : List Stmt)
  /-- A choice, with or without an alternative. -/
  | branch (cond : Expr) (thenBranch : Stmt) (elseBranch : Option Stmt)
  /-- A loop over the elements of `iter`; without a type its variable is declared by
  `var`. -/
  | foreach (ty : Option TypeExpr) (name : String) (iter : Expr) (body : Stmt)
deriving Repr

namespace Stmt

mutual

/-- The expressions of a statement, in the order in which they are written. -/
def roots : Stmt → List Expr
  | .declare _ _ init _ => init.toList
  | .assign target value => [target, value]
  | .expr value => [value]
  | .block stmts => rootsOfAll stmts
  | .branch cond thenBranch elseBranch =>
    cond :: (thenBranch.roots ++ (match elseBranch with
      | none => []
      | some s => s.roots))
  | .foreach _ _ iter body => iter :: body.roots

/-- The expressions of several statements, one after the other. -/
def rootsOfAll : List Stmt → List Expr
  | [] => []
  | s :: rest => s.roots ++ rootsOfAll rest

end

/-- All expression nodes of a statement. -/
def nodes (s : Stmt) : List Expr := Expr.nodesOfAll s.roots

end Stmt

/-- A program. -/
structure Program where
  stmts : List Stmt
  /-- The first number that no node of the program has. -/
  nextId : Nat
deriving Repr

namespace Program

/-- The expressions of a program, in the order in which they are written. -/
def roots (p : Program) : List Expr := Stmt.rootsOfAll p.stmts

/-- All expression nodes of a program: expressions in order, each node before its
parts. -/
def nodes (p : Program) : List Expr := Expr.nodesOfAll p.roots

end Program

end ListSugar
