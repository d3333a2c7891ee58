/-
Where operands are missing.

A missing operand is written as nothing, so where it stands the signs around it have to tell
that it is missing.  They do not tell it in front of a point or an opening parenthesis, in
front of a sign that is no comparison, alone between brackets, where no argument would be
read instead of one, and in front of the `=` of an assignment.

None of these occurs in what was read.  An operand is missed only at a token that ends
operands, and of the operators just the comparisons are such tokens.  `WellFormed` has all of
this in it, and the pass keeps it, so nothing has to be known here about how a program was
read or which literals were expanded in it.
-/
import ListSugar.Desugar.Session
import ListSugar.Proofs.Grammar.Placed
import ListSugar.Proofs.Pass.Rewrites

namespace ListSugar

/-! ### Places that do no harm

In front of a sign that does not end an operand, a missing operand would be read as the
beginning of a longer one, or as a fault.  `OmitsSafely` lists these places, one clause
for each kind of node.
-/

/-- The operators that compare two values by size. -/
def BinaryOp.isComparison : BinaryOp → Bool
  | .lt | .gt | .lte | .gte => true
  | _ => false

/-- The operators whose signs end an operand are the comparisons. -/
theorem BinaryOp.endsOperand_sign (op : BinaryOp) :
    (Token.symbol op.sign).endsOperand = op.isComparison := by
  cases op <;> rfl

namespace Expr

/-- No part of the node is missing where that would do harm. -/
def OmitsSafely : Expr → Prop
  | .binary _ op left _ => left.isMissing = true → op.isComparison = true
  | .member _ receiver _ => receiver.isMissing = false
  | .call _ callee args => callee.isMissing = false ∧ ∀ m, args ≠ [.missing m]
  | .index _ _ args => ∀ m, args ≠ [.missing m]
  | .new _ _ args _ => ∀ m, args ≠ some [.missing m]
  | _ => True

theorem ne_missing_of_loneMissing {args : List Expr} (h : loneMissing args = false) (m : Mark) :
    args ≠ [.missing m] := by
  rintro rfl
  cases h

/-- A node that can be read back omits nothing that does harm. -/
theorem Formed.omitsSafely {e : Expr} (h : e.Formed) : e.OmitsSafely := by
  cases e with
  | binary m op left right =>
    obtain ⟨-, -, hends⟩ := h
    intro hmissing
    rw [← op.endsOperand_sign]
    exact hends (endsMissing_of_isMissing hmissing)
  | member m receiver name => exact h.2
  | call m callee args =>
    obtain ⟨-, hcallee, hlone⟩ := h
    exact ⟨hcallee, ne_missing_of_loneMissing hlone⟩
  | index m receiver args => exact ne_missing_of_loneMissing h.2
  | new m ty args init =>
    rintro m' rfl
    exact ne_missing_of_loneMissing h.2 m' rfl
  | _ => exact trivial

theorem WellFormed.omitsSafely {e : Expr} (h : e.WellFormed) : ∀ n ∈ e.nodes, n.OmitsSafely :=
  fun n hn => (h n hn).omitsSafely

end Expr

namespace Stmt

/-- No operand of the statement is missing where that would do harm; in particular none is
missing in front of the sign of an assignment. -/
structure OmitsSafely (s : Stmt) : Prop where
  nodes : ∀ n ∈ s.nodes, n.OmitsSafely
  targets : ∀ target value, Within (.assign target value) s → target.endsMissing = false

/-- The expressions of a statement that can be read back can be read back. -/
theorem WellFormed.root {st : Stmt} : st.WellFormed → ∀ e ∈ st.roots, e.WellFormed := by
  induction st using parts_induction with
  | step st ih =>
    intro h e he
    cases st with
    | declare ty name init line =>
      obtain rfl : init = some e := by simpa [roots] using he
      exact h.2.2 e rfl
    | assign target value =>
      rcases (by simpa [roots] using he : e = target ∨ e = value) with rfl | rfl
      · exact h.1
      · exact h.2.1
    | expr value =>
      obtain rfl : e = value := by simpa [roots] using he
      exact h.1
    | block stmts =>
      rw [roots, rootsOfAll_eq, List.mem_flatMap] at he
      obtain ⟨p, hp, he⟩ := he
      exact ih p hp (h.part hp) e he
    | branch cond thenBranch elseBranch =>
      rw [roots_branch, List.mem_cons, List.mem_append, List.mem_flatMap] at he
      rcases he with rfl | he | ⟨p, hp, he⟩
      · exact h.1
      · exact ih thenBranch (by simp [parts]) h.2.1 e he
      · have hpart : p ∈ (branch cond thenBranch elseBranch).parts := by simp_all [parts]
        exact ih p hpart (h.part hpart) e he
    | foreach ty name iter body =>
      rcases (by simpa [roots] using he : e = iter ∨ e ∈ body.roots) with rfl | he
      · exact h.2.1
      · exact ih body (by simp [parts]) h.2.2 e he

theorem WellFormed.omitsSafely {st : Stmt} (h : st.WellFormed) : st.OmitsSafely where
  nodes := by
    intro n hn
    rw [Stmt.nodes, Expr.nodesOfAll_eq, List.mem_flatMap] at hn
    obtain ⟨e, he, hn⟩ := hn
    exact (h.root e he).omitsSafely n hn
  targets := fun _ _ hin => (h.within hin).2.2.1

end Stmt

/-! ### Programs that were desugared

A session keeps a program readable, so a list of sessions does, by induction on the list.
The wanted property then follows at the end, once for all ways to come by a program.
-/

/-- One session keeps a program readable. -/
theorem Desugar.Session.wellFormed_program (session : Session) {p : Program}
    (h : Stmt.AllWellFormed p.stmts) : Stmt.AllWellFormed (session.program p).1.1.stmts :=
  Setting.allWellFormed_stmts h _

namespace Program

/-- The program after several sessions, each with types and choices of its own. -/
def through : List Desugar.Session → Program → Program
  | [], p => p
  | session :: rest, p => through rest (session.program p).1.1

/-- Any number of sessions keep a program readable. -/
theorem wellFormed_through (sessions : List Desugar.Session) : ∀ {p : Program},
    Stmt.AllWellFormed p.stmts → Stmt.AllWellFormed (p.through sessions).stmts := by
  induction sessions with
  | nil => exact id
  | cons session rest ih => exact fun h => ih (session.wellFormed_program h)

end Program

namespace Parser

/-- **Operands are missing only where that does no harm.**  This holds of every expression,
statement and program that is read from any tokens, and of a program that was read and then
desugared any number of times, whatever the types, the choices and the numbers were. -/
theorem omits_safely (s t : TokenStream) :
    (∀ e, expr s = .ok e t → ∀ n ∈ e.nodes, n.OmitsSafely) ∧
    (∀ st, stmt s = .ok st t → st.OmitsSafely) ∧
    (∀ p, program s = .ok p t → (∀ st ∈ p.stmts, st.OmitsSafely) ∧
      ∀ sessions, ∀ st ∈ (p.through sessions).stmts, st.OmitsSafely) := by
  refine ⟨fun e h => (expr_spans h).wellFormed.omitsSafely, fun st h => ?_, fun p h => ?_⟩
  · rw [stmt, remaining_bind] at h
    exact (stmtNested_spans (by simp) h).wellFormed.omitsSafely
  · have hwf := Stmt.spansAll_wellFormed (program_spans h).1 fun p _ => Stmt.Spans.wellFormed
    have hsafe : ∀ sessions, ∀ st ∈ (p.through sessions).stmts, st.OmitsSafely :=
      fun sessions st hst =>
        (Stmt.allWellFormed_iff.mp (Program.wellFormed_through sessions hwf) st hst).omitsSafely
    exact ⟨hsafe [], hsafe⟩

/-- The tokens of `m[<, ] = [< -, 2 >];` after one session: three operands are missing in the
target, and of the three in the value the one that belongs to an element is left. -/
theorem omits_safely_assign :
    let s : TokenStream := ⟨[⟨.ident "m", ⟨1, 1⟩⟩, ⟨.symbol .lBracket, ⟨1, 2⟩⟩,
      ⟨.symbol .lt, ⟨1, 3⟩⟩, ⟨.symbol .comma, ⟨1, 4⟩⟩, ⟨.symbol .rBracket, ⟨1, 6⟩⟩,
      ⟨.symbol .assign, ⟨1, 8⟩⟩, ⟨.symbol .lBracket, ⟨1, 10⟩⟩, ⟨.symbol .lt, ⟨1, 11⟩⟩,
      ⟨.symbol .minus, ⟨1, 13⟩⟩, ⟨.symbol .comma, ⟨1, 14⟩⟩, ⟨.int 2, ⟨1, 16⟩⟩,
      ⟨.symbol .gt, ⟨1, 18⟩⟩, ⟨.symbol .rBracket, ⟨1, 19⟩⟩, ⟨.symbol .semi, ⟨1, 20⟩⟩],
      ⟨1, 21⟩, 0⟩
    let session := Desugar.Session.start ⟨{ onUnresolved := .proceed }, fun _ => .unknown⟩ 0
    ∃ p t st, program s = .ok p t ∧ p.nodes.countP Expr.isMissing = 7 ∧
      (p.through [session]).stmts = [st] ∧ st.nodes.countP Expr.isMissing = 4 ∧
      st.OmitsSafely := by
  intro s session
  have hrun : (program.run' s).map (fun p => (p.nodes.countP Expr.isMissing,
      (p.through [session]).stmts.map fun st => st.nodes.countP Expr.isMissing))
      = some (7, [4]) := by decide +kernel
  unfold EStateM.run' EStateM.run at hrun
  cases hread : program s with
  | error e t =>
    rw [hread] at hrun
    cases hrun
  | ok p t =>
    simp only [hread, Option.map_some, Option.some.injEq, Prod.mk.injEq] at hrun
    obtain ⟨hcount, hleft⟩ := hrun
    obtain ⟨st, hstmts, hst⟩ := List.map_eq_singleton_iff.mp hleft
    have hsafe := ((omits_safely s t).2.2 p hread).2 [session]
    exact ⟨p, t, st, rfl, hcount, hstmts, hst, hsafe st (by simp [hstmts])⟩

end Parser

end ListSugar
