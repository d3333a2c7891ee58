/-
Trees under other numbers and places.

A relabelling says what becomes of every number, of every place and of every line.  It is
applied to whatever holds marks: trees, statements, programs, and what is reported about
them.  Two things are alike apart from their places when a relabelling that forgets the
places makes them equal; a text that moves down by some lines is the relabelling that adds
to every line.  What the library does with trees is shown to commute with relabelling, one
stage at a time, and what a stage cannot depend on is read off from that.
-/
import ListSugar.Desugar.Report
import ListSugar.Diagnostic
import ListSugar.Proofs.Trees

namespace ListSugar

/-- What becomes of numbers, places and lines. -/
structure Relabel where
  id : Nat → Nat
  pos : Pos → Pos
  line : Nat → Nat
  /-- A place on a line goes where the line goes. -/
  line_pos : ∀ p, (pos p).line = line p.line

namespace Relabel

variable (r : Relabel)

/-- The mark with its number and its place changed. -/
def mark (m : Mark) : Mark := ⟨r.id m.id, r.pos m.pos⟩

/-- Everything stays as it is. -/
def stay : Relabel := ⟨fun i => i, fun p => p, fun l => l, fun _ => rfl⟩

/-- Numbers stay, and places are forgotten. -/
def unplaced : Relabel := ⟨fun i => i, fun _ => .start, fun _ => 1, fun _ => rfl⟩

/-- Numbers grow by `ids`, and everything moves down by `lines`. -/
def shift (ids lines : Nat) : Relabel :=
  ⟨(· + ids), fun p => ⟨p.line + lines, p.col⟩, (· + lines), fun _ => rfl⟩

end Relabel

/-! ### Trees and statements -/

namespace Expr

/-- The tree with the numbers and places that `r` gives. -/
abbrev relabel (r : Relabel) (e : Expr) : Expr := e.mapMarks r.mark

theorem id_relabel (r : Relabel) (e : Expr) : (e.relabel r).id = r.id e.id := by
  rw [id, mark_mapMarks]
  rfl

theorem pos_relabel (r : Relabel) (e : Expr) : (e.relabel r).pos = r.pos e.pos := by
  rw [pos, mark_mapMarks]
  rfl

end Expr

namespace Stmt

/-- The statement with the numbers, places and lines that `r` gives. -/
def relabel (r : Relabel) (st : Stmt) : Stmt := st.mapExprs (Expr.relabel r) r.line

theorem bare_relabel (r : Relabel) (st : Stmt) : (st.relabel r).bare = st.bare :=
  bare_mapExprs (Expr.bare_mapMarks r.mark) r.line st

theorem relabel_block (r : Relabel) (stmts : List Stmt) :
    (block stmts).relabel r = block (stmts.map (relabel r)) := by
  unfold relabel
  rw [mapExprs, mapAllExprs_eq]

theorem relabel_branch (r : Relabel) (cond : Expr) (thenBranch : Stmt)
    (elseBranch : Option Stmt) : (branch cond thenBranch elseBranch).relabel r
      = branch (cond.relabel r) (thenBranch.relabel r) (elseBranch.map (relabel r)) := by
  cases elseBranch <;> rfl

theorem rootsOfAll_relabel (r : Relabel) (stmts : List Stmt) :
    rootsOfAll (stmts.map (relabel r)) = (rootsOfAll stmts).map (Expr.relabel r) :=
  rootsOfAll_map fun p _ => roots_mapExprs _ _ p

end Stmt

namespace Program

/-- The program with the numbers, places and lines that `r` gives. -/
def relabel (r : Relabel) (p : Program) : Program :=
  ⟨p.stmts.map (Stmt.relabel r), r.id p.nextId⟩

theorem nodes_relabel (r : Relabel) (p : Program) :
    (p.relabel r).nodes = p.nodes.map (Expr.relabel r) := by
  rw [nodes_eq_flatMap, nodes_eq_flatMap]
  show (Stmt.rootsOfAll (p.stmts.map (Stmt.relabel r))).flatMap Expr.nodes = _
  rw [Stmt.rootsOfAll_relabel, List.flatMap_map, List.map_flatMap]
  exact congrArg (List.flatMap · _) (funext (Expr.nodes_mapMarks r.mark))

end Program

/-! ### Reports -/

/-- The site with its place changed. -/
def Site.relabel (r : Relabel) (s : Site) : Site := { s with pos := r.pos s.pos }

/-- The report with the places of its sites changed. -/
def Report.relabel (r : Relabel) (report : Report) : Report :=
  ⟨report.sites.map (Site.relabel r)⟩

/-- The diagnostic with its place changed. -/
def Diagnostic.relabel (r : Relabel) (d : Diagnostic) : Diagnostic := { d with pos := r.pos d.pos }

theorem Diagnostic.ofNode_relabel (r : Relabel) (e : Expr) :
    Diagnostic.ofNode (e.relabel r) = (Diagnostic.ofNode e).map (Diagnostic.relabel r) := by
  cases e with
  | new m ty args init =>
    by_cases h : ty.isResolved = true
    · simp [Expr.mapMarks, ofNode, h]
    · simp [Expr.mapMarks, ofNode, h, relabel, Relabel.mark]
  | _ => rfl

/-- The defects of a relabelled program are its defects, at their new places. -/
theorem Program.diagnostics_relabel (r : Relabel) (p : Program) :
    (p.relabel r).diagnostics = p.diagnostics.map (Diagnostic.relabel r) := by
  unfold diagnostics
  rw [nodes_relabel, List.filterMap_map, List.map_filterMap]
  exact congrArg (List.filterMap · p.nodes) (funext (Diagnostic.ofNode_relabel r))

end ListSugar
