/-
How many missing operands are read back.

A missing operand has no text.  Wherever it stands, its neighbours are written so that it is
missed again when the text is read, with one exception: behind the last comma of an
initializer it is not missed, since a comma may stand there.  So the text of a program says
of all missing operands but these that an expression is expected.

This is so if the text can be read at all and the container is a name.  Any other container
is written into the output as it is, and may end the statement or begin a comment.
-/
import ListSugar.Proofs.Convergence
import ListSugar.Proofs.Legible
import ListSugar.Proofs.Typing.Unresolved

namespace ListSugar

/-! ### Diagnostics of missing operands -/

namespace Diagnostic

/-- Whether the diagnostic says that an expression is expected. -/
def expectsExpression (d : Diagnostic) : Bool := d.defect.message = "expected expression"

theorem expectsExpression_unresolvedType (ty : TypeExpr) (pos : Pos) :
    expectsExpression ⟨.unresolvedType ty, pos⟩ = false := by
  refine decide_eq_false fun (hmessage : (Defect.unresolvedType ty).message = _) => ?_
  have hnames : (Defect.unresolvedType ty).namesType = Defect.missingOperand.namesType := by
    rw [Defect.namesType, hmessage]
    rfl
  rw [Defect.namesType_unresolvedType, Defect.namesType_missingOperand] at hnames
  cases hnames

/-- A node is said to be expected just when it is missing. -/
theorem expectsExpression_ofNode (n : Expr) :
    ((ofNode n).map expectsExpression).getD false = n.isMissing := by
  cases n with
  | missing m => rfl
  | new m ty args init =>
    by_cases hres : ty.isResolved = true
    · simp [ofNode, hres, Expr.isMissing]
    · simp [ofNode, hres, Expr.isMissing, expectsExpression_unresolvedType]
  | _ => rfl

end Diagnostic

theorem Program.countP_expectsExpression (p : Program) :
    p.diagnostics.countP Diagnostic.expectsExpression = p.nodes.countP Expr.isMissing := by
  rw [diagnostics, List.countP_filterMap]
  exact List.countP_congr fun n _ => by rw [Diagnostic.expectsExpression_ofNode]

/-! ### Missing operands of a trimmed tree

Only a construction loses an element, and the element that it loses is a missing one.  So
a tree and its trimmed tree are compared node by node, by what each construction hides.
-/

namespace Expr

/-- Whether the node is a construction with an initializer whose last element is missing. -/
def hidesMissing : Expr → Bool
  | .new _ _ _ (some init) => init.getLast?.any isMissing
  | _ => false

/-- How many nodes of the trees pass the test. -/
def countIn (P : Expr → Bool) (es : List Expr) : Nat := (es.flatMap nodes).countP P

variable {P : Expr → Bool}

theorem countIn_cons (e : Expr) (es : List Expr) :
    countIn P (e :: es) = e.nodes.countP P + countIn P es := by
  rw [countIn, List.flatMap_cons, List.countP_append]
  rfl

theorem countIn_append (es fs : List Expr) :
    countIn P (es ++ fs) = countIn P es + countIn P fs := by
  rw [countIn, List.flatMap_append, List.countP_append]
  rfl

theorem countP_nodes (e : Expr) : e.nodes.countP P = (P e).toNat + countIn P e.children := by
  rw [nodes_eq, List.countP_cons, countIn, Nat.add_comm]
  cases P e <;> rfl

/-- A last element that is dropped was missing. -/
theorem countIn_dropLastMissing (es : List Expr) :
    countIn isMissing (dropLastMissing es) + (es.getLast?.any isMissing).toNat =
      countIn isMissing es := by
  unfold dropLastMissing
  cases hlast : es.getLast? with
  | none =>
    rw [List.getLast?_eq_none_iff.mp hlast]
    rfl
  | some last =>
    obtain ⟨before, rfl⟩ := List.getLast?_eq_some_iff.mp hlast
    cases last with
    | missing m => simp [isMissing, countIn, nodes]
    | _ => simp [isMissing]

theorem any_getLast?_map_trimmed (es : List Expr) :
    (es.map trimmed).getLast?.any isMissing = es.getLast?.any isMissing := by
  rw [List.getLast?_map]
  cases es.getLast? with
  | none => rfl
  | some last => exact isMissing_trimmed last

theorem hidesMissing_new (m : Mark) (ty : TypeExpr) (args init : Option (List Expr)) :
    (new m ty args init).hidesMissing = (init.getD []).getLast?.any isMissing := by
  cases init <;> rfl

theorem children_trimmed_new (m : Mark) (ty : TypeExpr) (args init : Option (List Expr)) :
    (new m ty args init).trimmed.children =
      (args.getD []).map trimmed ++ dropLastMissing ((init.getD []).map trimmed) := by
  cases args <;> cases init <;>
    simp [trimmed, trimmedPart, trimmedAll_eq, children, dropLastMissing]

/-- Only a construction loses an element. -/
theorem children_trimmed {e : Expr} (h : ∀ m ty args init, e ≠ .new m ty args init) :
    e.trimmed.children = e.children.map trimmed ∧ e.hidesMissing = false := by
  cases e with
  | new m ty args init => exact absurd rfl (h m ty args init)
  | _ => simp [trimmed, trimmedAll_eq, children, hidesMissing]

theorem countIn_trimmed_of : ∀ {es : List Expr}, (∀ e ∈ es,
    e.trimmed.nodes.countP isMissing + e.nodes.countP hidesMissing = e.nodes.countP isMissing) →
    countIn isMissing (es.map trimmed) + countIn hidesMissing es = countIn isMissing es := by
  intro es
  induction es with
  | nil => exact fun _ => rfl
  | cons e es ih =>
    intro h
    have hfirst := h e (by simp)
    have hrest := ih fun c hc => h c (by simp [hc])
    rw [List.map_cons, countIn_cons, countIn_cons, countIn_cons]
    omega

/-- **A trimmed tree lacks the missing operands that initializers hide.** -/
theorem countP_isMissing_trimmed (e : Expr) :
    e.trimmed.nodes.countP isMissing + e.nodes.countP hidesMissing = e.nodes.countP isMissing := by
  induction e using children_induction with
  | step e ih =>
    rw [countP_nodes, countP_nodes e, countP_nodes e, isMissing_trimmed]
    have hparts := countIn_trimmed_of ih
    by_cases hnew : ∃ m ty args init, e = .new m ty args init
    · obtain ⟨m, ty, args, init, rfl⟩ := hnew
      have hlast := countIn_dropLastMissing ((init.getD []).map trimmed)
      rw [any_getLast?_map_trimmed] at hlast
      rw [children, List.map_append, countIn_append] at hparts
      rw [children_trimmed_new, countIn_append, hidesMissing_new, children]
      omega
    · obtain ⟨hchildren, hhides⟩ := children_trimmed fun m ty args init heq =>
        hnew ⟨m, ty, args, init, heq⟩
      rw [hchildren, hhides, Bool.toNat_false]
      omega

end Expr

/-! ### Programs

The operands are counted in the program that a run gives and in the one that is read back
from its output.  Between the two there is only trimming, if the text can be read at all.
-/

namespace Program

open Desugar

variable {p : Program}

/-- What is read back from the text of a program lacks the missing operands that initializers
hide. -/
theorem ReadBack.countP_isMissing {q : Program} (h : p.ReadBack q) :
    q.nodes.countP Expr.isMissing + p.nodes.countP Expr.hidesMissing =
      p.nodes.countP Expr.isMissing := by
  have hbare : ∀ ns : List Expr, (ns.map Expr.bare).countP Expr.isMissing =
      ns.countP Expr.isMissing := by
    intro ns
    rw [List.countP_map]
    exact List.countP_congr fun n _ => by rw [Function.comp_apply, Expr.isMissing_bare]
  have hread : q.nodes.countP Expr.isMissing =
      Expr.countIn Expr.isMissing (p.roots.map Expr.trimmed) := by
    rw [← hbare, h.map_bare_nodes, hbare, Stmt.nodesOfAll, Expr.nodesOfAll_eq,
      Stmt.rootsOfAll_map fun st _ => st.roots_trimmed]
    rfl
  rw [hread, nodes_eq_flatMap]
  exact Expr.countIn_trimmed_of fun e _ => e.countP_isMissing_trimmed

/-- A run that expands nothing replaces nothing. -/
theorem IsRead.not_replaces (h : p.IsRead) {options : Options}
    (hnone : (p.desugar options).report.expanded = 0) {n n' : Expr}
    (hn' : n' ∈ (p.desugar options).program.nodes) :
    ¬ (p.setting options).Replaces p.nextId n n' := by
  rintro ⟨site, elements, id, -, hid, rfl⟩
  have hcreates := h.creates_desugar options
  have hsites : expansions (p.desugar options).visits = [] := by
    rw [← List.length_eq_zero_iff, expansions, ← List.countP_eq_length_filter]
    exact hnone
  rw [hsites] at hcreates
  refine List.filter_eq_nil_iff.mp hcreates _ hn' ?_
  simpa [Expr.id, mark_construct] using hid

/-- A word of an expanded program can be scanned, if nothing was expanded or the container is
a name. -/
theorem IsRead.scanned (h : p.IsRead) {options : Options}
    (hcontainer : (p.desugar options).report.expanded = 0 ∨ IsName options.container) {e' : Expr}
    (he' : e' ∈ (p.desugar options).program.roots) {t : Token} (ht : e'.Has t) : t.Scanned := by
  rcases hcontainer with hnone | hname
  · obtain ⟨e, he, hR⟩ := (p.related_desugar options).exists_root e' he'
    obtain rfl : e' = e := hR.eq_of_not_replaces fun n _ n' hn' =>
      h.not_replaces hnone (mem_nodes_of_mem_roots he' hn')
    exact h.words e' he t ht
  · exact h.scanned_desugar hname he' ht

/-- **The output of a run is read back as its program, trimmed, if it is read at all.** -/
theorem IsRead.readBack_desugar (h : p.IsRead) {options : Options}
    (hcontainer : (p.desugar options).report.expanded = 0 ∨ IsName options.container)
    {q : Program} (hq : ofText (p.desugar options).program.render = .ok q) :
    (p.desugar options).program.ReadBack q := by
  refine bare_of_ofText_render ?_ (fun e he t => h.scanned hcontainer he) ?_ hq
  · exact Desugar.Setting.allWellFormed_stmts h.wellFormed p.nextId
  · intro t ht
    exact h.heads t ((p.related_desugar options).heads_eq ▸ ht)

end Program

/-- **All missing operands but the last ones of initializers are reported again.**  If
nothing was expanded or the container is a name, and the text of the program of a run is read,
then what is read has as many diagnostics that say that an expression is expected as the
program has, less the initializers whose last element is missing. -/
theorem countP_expectsExpression_output {source : String} {options : Options} {d : Desugared}
    {p : Program}
    (hcontainer : d.report.expanded = 0 ∨ ∃ found, tokenize options.container = .ok found ∧
      found.map Located.token = [.ident options.container, .eof])
    (hd : desugar source options = .ok d) (hp : Program.ofText d.program.render = .ok p) :
    p.diagnostics.countP Diagnostic.expectsExpression + d.program.nodes.countP Expr.hidesMissing =
      d.program.diagnostics.countP Diagnostic.expectsExpression := by
  obtain ⟨p', hread, rfl⟩ := desugar_eq_ok_iff.mp hd
  have hback := (Program.isRead_of_ofText hread).readBack_desugar
    (hcontainer.imp_right isName_of_tokenize) hp
  rw [Program.countP_expectsExpression, Program.countP_expectsExpression]
  exact hback.countP_isMissing

/-- An operand that is missing in a call is reported again, and one that is missing at the end
of an initializer is not. -/
theorem countP_expectsExpression_output_call : ∃ d p,
    desugar "f(, 1); x = [<1, >];" {} = .ok d ∧ Program.ofText d.program.render = .ok p ∧
      d.program.diagnostics.countP Diagnostic.expectsExpression = 2 ∧
      d.program.nodes.countP Expr.hidesMissing = 1 ∧
      p.diagnostics.countP Diagnostic.expectsExpression = 1 := by
  have hrun : (desugar "f(, 1); x = [<1, >];" {}).map (fun d =>
      (d.program.nodes.countP Expr.isMissing, d.program.nodes.countP Expr.hidesMissing,
        (Program.ofText d.program.render).map fun _ => ())) = .ok (2, 1, .ok ()) := by
    decide +kernel
  obtain ⟨d, hd, hrun⟩ := map_eq_ok_iff.mp hrun
  obtain ⟨hmissing, hhides, hread⟩ :
      d.program.nodes.countP Expr.isMissing = 2 ∧ d.program.nodes.countP Expr.hidesMissing = 1 ∧
        (Program.ofText d.program.render).map (fun _ => ()) = .ok () := by
    simpa using hrun
  obtain ⟨p, hp, -⟩ := map_eq_ok_iff.mp hread
  rw [← Program.countP_expectsExpression] at hmissing
  have hcount := countP_expectsExpression_output
    (Or.inr (map_eq_ok_iff.mp (by decide +kernel))) hd hp
  exact ⟨d, p, hd, hp, hmissing, hhides, by omega⟩

/-- Missing operands that are not reported again: behind the last comma of an initializer, and
behind a container that ends the statement and begins a comment. -/
theorem countP_expectsExpression_output_ne :
    (desugar "var x = [<1, >];" {}).map (fun d =>
      (d.program.diagnostics.countP Diagnostic.expectsExpression,
        (Program.ofText d.program.render).map fun p =>
          p.diagnostics.countP Diagnostic.expectsExpression)) = .ok (1, .ok 0) ∧
    (desugar "var x = [<1, , 2>];" ⟨"List<int>(); //", .abstain⟩).map (fun d =>
      (d.program.diagnostics.countP Diagnostic.expectsExpression,
        (Program.ofText d.program.render).map fun p =>
          p.diagnostics.countP Diagnostic.expectsExpression)) = .ok (1, .ok 0) := by
  simp only [Program.countP_expectsExpression]
  constructor
  · decide +kernel
  · decide +kernel

end ListSugar
