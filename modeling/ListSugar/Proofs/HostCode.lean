/-
Programs that the pass leaves alone.

A run reports no site just when no node of the program has the shape of a list literal,
and then it gives back the program as it is, numbers and places included.

One would expect such a shape only where an operand is missing, since the delimiters of a
literal are comparisons without one of their operands.  For a single argument it is so.
Several arguments are recognised by their first and last comparison alone, whatever stands
on the outer sides of these, so an element access like `m[a < b, c > d]` is taken for a
literal although nothing is missing in it; and this is the only way in which a program
without missing operands is changed.
-/
import ListSugar.Proofs.Pass.Rewrites
import ListSugar.Proofs.Texts

namespace ListSugar

namespace Stmt

variable {R : Expr → Expr → Prop}

/-! ### Statements whose expressions stay -/

theorem relatedAll_eq_self : ∀ {stmts stmts' : List Stmt}, RelatedAll R stmts stmts' →
    (∀ p ∈ stmts, ∀ {p'}, Related R p p' → (∀ e ∈ p.roots, ∀ e', R e e' → e' = e) → p' = p) →
    (∀ e ∈ rootsOfAll stmts, ∀ e', R e e' → e' = e) → stmts' = stmts := by
  intro stmts
  induction stmts with
  | nil =>
    intro stmts' h _ _
    exact h
  | cons first rest ih =>
    intro stmts' h hpart hroots
    obtain ⟨first', rest', hfirst, hrest, rfl⟩ := h
    rw [hpart first (by simp) hfirst fun e he => hroots e (by simp [rootsOfAll, he]),
      ih hrest (fun p hp => hpart p (by simp [hp])) fun e he =>
        hroots e (by simp [rootsOfAll, he])]

/-- A statement whose expressions are related to themselves only is so too. -/
theorem Related.eq_self {st : Stmt} : ∀ {st' : Stmt}, Related R st st' →
    (∀ e ∈ st.roots, ∀ e', R e e' → e' = e) → st' = st := by
  induction st using parts_induction with
  | step st ih =>
    intro st' h hroots
    have hpart : ∀ p ∈ st.parts, ∀ p', Related R p p' → p' = p := fun p hp p' hR =>
      ih p hp hR fun e he => hroots e (mem_roots_of_mem_parts hp he)
    cases st with
    | declare ty name init line =>
      obtain ⟨init', hinit, rfl⟩ := h
      cases init with
      | none => rw [show init' = none from hinit]
      | some e =>
        obtain ⟨e', he, rfl⟩ := hinit
        rw [hroots e (by simp [roots]) e' he]
    | assign target value =>
      obtain ⟨target', value', htarget, hvalue, rfl⟩ := h
      rw [hroots target (by simp [roots]) target' htarget,
        hroots value (by simp [roots]) value' hvalue]
    | expr value =>
      obtain ⟨value', hvalue, rfl⟩ := h
      rw [hroots value (by simp [roots]) value' hvalue]
    | block stmts =>
      obtain ⟨stmts', hall, rfl⟩ := h
      rw [relatedAll_eq_self hall (fun p hp => ih p (by simpa [parts] using hp)) hroots]
    | branch cond thenBranch elseBranch =>
      obtain ⟨cond', thenBranch', elseBranch', hcond, hthen, helse, rfl⟩ := h
      rw [hroots cond (by simp [roots_branch]) cond' hcond,
        hpart thenBranch (by simp [parts]) thenBranch' hthen]
      cases elseBranch with
      | none => rw [show elseBranch' = none from helse]
      | some other =>
        obtain ⟨other', hother, rfl⟩ := helse
        rw [hpart other (by simp [parts]) other' hother]
    | foreach ty name iter body =>
      obtain ⟨iter', body', hiter, hbody, rfl⟩ := h
      rw [hroots iter (by simp [roots]) iter' hiter, hpart body (by simp [parts]) body' hbody]

theorem RelatedAll.eq_self {stmts stmts' : List Stmt} (h : RelatedAll R stmts stmts')
    (hroots : ∀ e ∈ rootsOfAll stmts, ∀ e', R e e' → e' = e) : stmts' = stmts :=
  relatedAll_eq_self h (fun _ _ => Related.eq_self) hroots

end Stmt

namespace Desugar

/-! ### Sites and shapes

Every literal that a walk meets is reported, whatever becomes of it.  A literal inside
another one that is expanded is not met, but then there is a site for the outer one.
-/

namespace Setting

variable {s : Setting} {k : Nat}

theorem sites_exprs_of : ∀ {es : List Expr}, (∀ e ∈ es, ∀ n,
      sitesOf (s.expr e n).visits = [] ↔ ∀ x ∈ e.nodes, x.delimited? = none) → ∀ n,
    sitesOf (s.exprs es n).visits = [] ↔ ∀ e ∈ es, ∀ x ∈ e.nodes, x.delimited? = none := by
  intro es
  induction es with
  | nil =>
    intro _ n
    simp [exprs_nil, sitesOf]
  | cons e rest ih =>
    intro h n
    have hfirst := h e (by simp) n
    have hrest := ih (fun c hc => h c (by simp [hc])) (s.expr e n).nextId
    simp only [exprs_cons, sitesOf_append, List.append_eq_nil_iff, hfirst, hrest,
      List.forall_mem_cons]

/-- **A walk meets no site just when no node has the shape of a literal.** -/
theorem sites_expr (e : Expr) : ∀ n,
    sitesOf (s.expr e n).visits = [] ↔ ∀ x ∈ e.nodes, x.delimited? = none := by
  induction e using Expr.children_induction with
  | step e ih =>
    intro n
    cases hshape : e.delimited? with
    | none =>
      have hnot : ¬ (s.judge e).Expands := not_expands_of_not_delimited hshape
      have hnotes : sitesOf ((s.judge e).notes e.pos) = [] := by
        rcases judge_of_not_delimited (s := s) hshape with h | h <;> rw [h] <;> rfl
      rw [(kept hnot n).visits, sitesOf_append, hnotes, List.nil_append, Expr.forall_nodes_iff,
        sites_exprs_of ih n]
      exact ⟨fun h => ⟨hshape, h⟩, fun h => h.2⟩
    | some shape =>
      have hsome : ¬ ∀ x ∈ e.nodes, x.delimited? = none := by
        intro h
        have hnone := h e (Expr.self_mem_nodes e)
        rw [hshape] at hnone
        cases hnone
      refine ⟨fun hsites => ?_, fun h => absurd h hsome⟩
      obtain ⟨site, hj | hj⟩ := judge_of_delimited (s := s) hshape
      · have hnot : ¬ (s.judge e).Expands := by simp [hj]
        rw [(kept hnot n).visits, hj] at hsites
        cases hsites
      · rw [s.expr_of_expand hj] at hsites
        cases hsites

/-- Where no node has the shape of a literal, rewriting changes nothing. -/
theorem Rewrites.eq_of_not_delimited {e e' : Expr} (h : s.Rewrites k e e')
    (hnone : ∀ x ∈ e.nodes, x.delimited? = none) : e' = e := by
  refine h.eq_of_not_replaces fun n hn n' _ hreplace => ?_
  obtain ⟨site, elements, id, hj, -⟩ := hreplace
  exact not_expands_of_not_delimited (hnone n hn) ⟨site, elements, hj⟩

end Setting

end Desugar

/-! ### Programs without missing operands

A single argument must hold a comparison with at most one operand there, so it takes a
missing one.  For several arguments the outer operands are not asked for, and this leaves
one kind of access.
-/

namespace Expr

/-- An element access with two arguments or more, the first a comparison by `<` and the last
one by `>`. -/
def BetweenComparisons (n : Expr) : Prop :=
  ∃ m receiver first middles last, n = .index m receiver (first :: (middles ++ [last])) ∧
    (∃ m' left right, first = .binary m' .lt left right) ∧
    ∃ m' left right, last = .binary m' .gt left right

/-- A single argument in which nothing is missing is no literal. -/
theorem single?_of_no_missing {arg : Expr} (h : ∀ x ∈ arg.nodes, x.isMissing = false) :
    arg.single? = none := by
  cases hsingle : arg.single? with
  | none => rfl
  | some shape =>
    obtain ⟨outer, inner, rfl, hinner, hlength, -⟩ := single?_eq_some_iff.mp hsingle
    obtain ⟨side, hside, hlt⟩ := List.exists_of_findSome?_eq_some hinner
    obtain rfl := comparison?_eq_some_iff.mp hlt
    have hchild : ∀ c ∈ [inner.left, inner.right], c.isMissing = false := by
      intro c hc
      refine h c (mem_nodes_trans (mem_nodes_of_mem_children ?_) (mem_nodes_of_mem_children hside))
      exact hc
    -- Both operands of the comparison are there, so it holds two elements.
    have hboth : presentOperands inner = [inner.left, inner.right] := by
      refine List.filter_eq_self.mpr fun c hc => ?_
      rw [hchild c hc]
      rfl
    rw [hboth] at hlength
    simp at hlength

/-- **Without missing operands only an access between two comparisons has the shape of a
literal.** -/
theorem delimited?_iff_of_no_missing {n : Expr} (h : ∀ x ∈ n.nodes, x.isMissing = false) :
    n.delimited? = none ↔ ¬ n.BetweenComparisons := by
  constructor
  · rintro hnone ⟨m, receiver, first, middles, last, rfl, ⟨m₁, l₁, r₁, rfl⟩, ⟨m₂, l₂, r₂, rfl⟩⟩
    have hsome := delimitedArgs?_eq_some_iff.mpr
      ⟨⟨m₁, l₁, r₁⟩, ⟨m₂, l₂, r₂⟩, rfl, rfl, (rfl : _ = Delimited.range _ middles _)⟩
    rw [show delimitedArgs? _ = none from hnone] at hsome
    cases hsome
  · intro hnot
    cases n with
    | index m receiver args =>
      show delimitedArgs? args = none
      rcases ends_cases args with rfl | ⟨only, rfl⟩ | ⟨first, middles, last, rfl⟩
      · rfl
      · refine single?_of_no_missing fun x hx => h x ?_
        exact mem_nodes_iff.mpr (Or.inr ⟨only, by simp [children], hx⟩)
      · cases hshape : delimitedArgs? (first :: (middles ++ [last])) with
        | none => rfl
        | some shape =>
          obtain ⟨opening, closing, hfirst, hlast, -⟩ := delimitedArgs?_eq_some_iff.mp hshape
          exact absurd ⟨m, receiver, first, middles, last, rfl, ⟨_, _, _, hfirst⟩,
            ⟨_, _, _, hlast⟩⟩ hnot
    | _ => rfl

end Expr

namespace Program

open Desugar

/-- **A run leaves a program alone just when no node has the shape of a literal.** -/
theorem desugar_eq_self_iff (p : Program) (options : Options) :
    ((p.desugar options).report.sites = [] ∧ (p.desugar options).program = p) ↔
      ∀ n ∈ p.nodes, n.delimited? = none := by
  have hnodes : (∀ n ∈ p.nodes, n.delimited? = none) ↔
      ∀ e ∈ p.roots, ∀ x ∈ e.nodes, x.delimited? = none := by
    rw [nodes_eq_flatMap]
    simp only [List.mem_flatMap]
    exact ⟨fun h e he x hx => h x ⟨e, he, hx⟩, fun h x ⟨e, he, hx⟩ => h e he x hx⟩
  have hsites : (p.desugar options).report.sites = [] ↔
      ∀ e ∈ p.roots, ∀ x ∈ e.nodes, x.delimited? = none := by
    have h := Setting.sites_exprs_of (s := p.setting options)
      (fun e (_ : e ∈ p.roots) => Setting.sites_expr e) p.nextId
    rwa [exprs_desugar] at h
  rw [hnodes, ← hsites]
  refine ⟨fun h => h.1, fun h => ⟨h, ?_⟩⟩
  have hnone := hsites.mp h
  have hstmts : (p.desugar options).program.stmts = p.stmts :=
    (p.related_desugar options).eq_self fun e he e' hR => hR.eq_of_not_delimited (hnone e he)
  have hnext : (p.desugar options).program.nextId = p.nextId := by
    have hcount := Setting.nextId_exprs (s := p.setting options) p.roots p.nextId
    rw [exprs_desugar] at hcount
    have hvisits : expansions (p.desugar options).visits = [] := by
      unfold expansions
      rw [show sitesOf (p.desugar options).visits = [] from h]
      rfl
    simpa [hvisits] using hcount
  cases p
  exact congrArg₂ Program.mk hstmts hnext

end Program

/-- **What a run does to a program in which no operand is missing.**  It reports no site and
gives back the program as it was read, unless some element access has two arguments or more
of which the first is a comparison by `<` and the last one by `>`. -/
theorem desugar_untouched_iff {source : String} {p : Program} (hp : Program.ofText source = .ok p)
    (hmissing : ∀ n ∈ p.nodes, n.isMissing = false) (options : Options) :
    ∃ d, desugar source options = .ok d ∧
      ((d.report.sites = [] ∧ d.program = p) ↔ ¬ ∃ n ∈ p.nodes, n.BetweenComparisons) := by
  have hshape : ∀ n ∈ p.nodes, n.delimited? = none ↔ ¬ n.BetweenComparisons := by
    intro n hn
    refine Expr.delimited?_iff_of_no_missing fun x hx => hmissing x ?_
    rw [Program.nodes_eq_flatMap, List.mem_flatMap] at hn ⊢
    obtain ⟨e, he, hne⟩ := hn
    exact ⟨e, he, Expr.mem_nodes_trans hx hne⟩
  refine ⟨p.desugar options, desugar_of_ofText hp options, ?_⟩
  rw [Program.desugar_eq_self_iff]
  constructor
  · rintro h ⟨n, hn, hbetween⟩
    exact (hshape n hn).mp (h n hn) hbetween
  · intro h n hn
    exact (hshape n hn).mpr fun hbetween => h ⟨n, hn, hbetween⟩

/-- An access whose arguments are comparisons is rewritten as if it were a literal, though
nothing in it is missing. -/
theorem desugar_untouched_iff_access : ∃ p d,
    Program.ofText "var a = 1; var x = m[a < a, a > a];" = .ok p ∧
      (∀ n ∈ p.nodes, n.isMissing = false) ∧
      desugar "var a = 1; var x = m[a < a, a > a];" {} = .ok d ∧
      d.output = "var a = 1;\nvar x = new List<int> \x7b a, a \x7d;\n" ∧
      ∃ n ∈ p.nodes, n.BetweenComparisons := by
  have hrun : ((Program.ofText "var a = 1; var x = m[a < a, a > a];").map fun p =>
      (p.nodes.all fun n => !n.isMissing, (p.desugar {}).report.sites.length,
        (p.desugar {}).output)) =
        .ok (true, 1, "var a = 1;\nvar x = new List<int> \x7b a, a \x7d;\n") := by
    decide +kernel
  obtain ⟨p, hp, hrun⟩ := map_eq_ok_iff.mp hrun
  obtain ⟨hpresent, hsites, houtput⟩ :
      (∀ n ∈ p.nodes, n.isMissing = false) ∧ (p.desugar {}).report.sites.length = 1 ∧
        (p.desugar {}).output = _ := by
    simpa using hrun
  obtain ⟨d, hd, hiff⟩ := desugar_untouched_iff hp hpresent {}
  obtain rfl := Except.ok.inj ((desugar_of_ofText hp {}).symm.trans hd)
  refine ⟨p, _, hp, hpresent, hd, houtput, Classical.not_not.mp fun hnone => ?_⟩
  rw [(hiff.mpr hnone).1] at hsites
  cases hsites

end ListSugar
