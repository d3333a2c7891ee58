/-
Several walks with one supply of numbers.

A session keeps the next unused number and the sites met since the last program.
Each call walks a tree from there; desugaring a program first raises the number past
those of the program, and takes the sites with it as its report.
-/
import ListSugar.Desugar.Pass

namespace ListSugar.Desugar

/-- A setting, the next unused number and the report of what was met so far. -/
structure Session where
  setting : Setting
  nextId : Nat
  report : Report

namespace Session

/-- A session that has met nothing and starts its numbers at `nextId`. -/
def start (setting : Setting) (nextId : Nat) : Session := ⟨setting, nextId, .empty⟩

/-- One walk: its result, and the session after it. -/
def run {α : Type} (s : Session) (p : Pass α) : α × Session :=
  let walked := p s.nextId
  (walked.value, ⟨s.setting, walked.nextId, ⟨s.report.sites ++ sitesOf walked.visits⟩⟩)

/-- Offers one node, without walking its parts. -/
def node (s : Session) (e : Expr) : Option Expr × Session := s.run (s.setting.replace? e)

/-- Desugars an expression. -/
def expr (s : Session) (e : Expr) : Expr × Session := s.run (s.setting.expr e)

/-- Desugars a statement. -/
def stmt (s : Session) (st : Stmt) : Stmt × Session := s.run (s.setting.stmt st)

/-- Desugars a program and hands over the report. -/
def program (s : Session) (p : Program) : (Program × Report) × Session :=
  let (stmts, after) := { s with nextId := max s.nextId p.nextId }.run (s.setting.stmts p.stmts)
  ((⟨stmts, after.nextId⟩, after.report), { after with report := .empty })

end Session

end ListSugar.Desugar
