/-
The pass on a relabelled tree.

A pass looks at a node's place only to note it and at its number only to look up a type.
So a walk over a relabelled tree is the walk over the tree, relabelled, provided that the
types are the same and that numbers not yet given out are relabelled one after the other.
Nothing is asked of the numbers that the tree already has: they may be moved apart, as long
as the types move with them.
-/
import ListSugar.Proofs.Pass.Steps
import ListSugar.Proofs.Relabeled
import ListSugar.Proofs.Shapes

namespace ListSugar

/-- From `n` on, numbers are relabelled one after the other. -/
def Relabel.StepsFrom (r : Relabel) (n : Nat) : Prop := ∀ m, n ≤ m → r.id (m + 1) = r.id m + 1

theorem Relabel.StepsFrom.mono {r : Relabel} {n m : Nat} (h : r.StepsFrom n) (hle : n ≤ m) :
    r.StepsFrom m :=
  fun k hk => h k (Nat.le_trans hle hk)

namespace Desugar

/-- What was seen, at its new place. -/
def Visit.relabel (r : Relabel) : Visit → Visit
  | .access pos => .access (r.pos pos)
  | .literal site => .literal (site.relabel r)

theorem sitesOf_relabel (r : Relabel) (visits : List Visit) :
    sitesOf (visits.map (Visit.relabel r)) = (sitesOf visits).map (Site.relabel r) := by
  unfold sitesOf
  rw [List.filterMap_map, List.map_filterMap]
  congr 1
  funext v
  cases v <;> rfl

/-- The walk with its value changed by `f` and everything else relabelled. -/
def Walked.relabel {α : Type} (r : Relabel) (f : α → α) (w : Walked α) : Walked α :=
  ⟨f w.value, r.id w.nextId, w.visits.map (Visit.relabel r)⟩

/-- The verdict with what it says about the node relabelled. -/
def Verdict.relabel (r : Relabel) : Verdict → Verdict
  | .other => .other
  | .access => .access
  | .leave site => .leave (site.relabel r)
  | .expand site elements => .expand (site.relabel r) (elements.map (Expr.relabel r))

theorem Verdict.notes_relabel (r : Relabel) (pos : Pos) (v : Verdict) :
    (v.relabel r).notes (r.pos pos) = (v.notes pos).map (Visit.relabel r) := by
  cases v <;> rfl

theorem Verdict.expands_relabel {r : Relabel} {v : Verdict} :
    (v.relabel r).Expands ↔ v.Expands := by
  cases v with
  | expand site elements => exact ⟨fun _ => ⟨site, elements, rfl⟩, fun _ => ⟨_, _, rfl⟩⟩
  | _ => simp [Verdict.relabel]

namespace Setting

variable {r : Relabel} {s s' : Setting}

/-- The two settings make the same choices, and the second one gives every relabelled node
of the trees the type that the first one gives the node. -/
structure Agrees (r : Relabel) (s s' : Setting) (nodes : List Expr) : Prop where
  options : s'.options = s.options
  typeOf : ∀ n ∈ nodes, s'.typeOf (n.relabel r) = s.typeOf n

theorem Agrees.mono {ns ms : List Expr} (h : Agrees r s s' ns) (hsub : ∀ n ∈ ms, n ∈ ns) :
    Agrees r s s' ms :=
  ⟨h.options, fun n hn => h.typeOf n (hsub n hn)⟩

theorem Agrees.child {e c : Expr} (h : Agrees r s s' e.nodes) (hc : c ∈ e.children) :
    Agrees r s s' c.nodes :=
  h.mono fun _ hn => Expr.mem_nodes_iff.mpr (Or.inr ⟨c, hc, hn⟩)

/-! ### One node

A verdict depends on the comparisons among the arguments and on the type of the first
element.  A relabelling touches neither, as long as the types go with the nodes.
-/

theorem elementType_relabel {elements : List Expr}
    (h : ∀ e ∈ elements, s'.typeOf (e.relabel r) = s.typeOf e) :
    Expr.elementType s'.typeOf (elements.map (Expr.relabel r))
      = Expr.elementType s.typeOf elements := by
  cases elements with
  | nil => rfl
  | cons first rest => exact h first (by simp)

theorem judgeElements_relabel (ho : s'.options = s.options) {elements : List Expr}
    (h : ∀ e ∈ elements, s'.typeOf (e.relabel r) = s.typeOf e) (pos : Pos) :
    s'.judgeElements (r.pos pos) (elements.map (Expr.relabel r))
      = (s.judgeElements pos elements).relabel r := by
  have hty := elementType_relabel h
  have hexpands : s'.expands (Expr.elementType s.typeOf elements)
      = s.expands (Expr.elementType s.typeOf elements) := by
    simp only [expands, ho]
  simp only [judgeElements, hty, hexpands, List.length_map]
  by_cases hexpand : s.expands (Expr.elementType s.typeOf elements) = true
  · simp [hexpand, Verdict.relabel, Site.relabel]
  · simp [hexpand, Verdict.relabel, Site.relabel]

/-- The verdict on a relabelled node is the verdict on the node. -/
theorem judge_relabel {e : Expr} (h : Agrees r s s' e.nodes) :
    s'.judge (e.relabel r) = (s.judge e).relabel r := by
  cases e with
  | index m receiver args =>
    simp only [Expr.relabel, Expr.mapMarks, Expr.mapMarksAll_eq, judge,
      Expr.delimitedArgs?_mapMarks]
    cases hshape : Expr.delimitedArgs? args with
    | none => rfl
    | some shape =>
      simp only [Option.map_some, Delimited.elements_mapMarks]
      refine judgeElements_relabel h.options (fun e he => h.typeOf e ?_) m.pos
      have hsub := Expr.elements_sublist_of_delimitedArgs? hshape
      have hmem := hsub.subset (List.mem_flatMap.mpr ⟨e, he, e.self_mem_nodes⟩)
      rw [Expr.nodes_eq, Expr.children, List.flatMap_cons]
      simp [hmem]
  | _ => rfl

theorem construct_relabel (container : String) (ty : Ty) (m : Mark) (elements : List Expr) :
    Expr.construct container ty (r.mark m) (elements.map (Expr.relabel r))
      = (Expr.construct container ty m elements).relabel r := by
  cases elements with
  | nil => rfl
  | cons first rest =>
    simp [Expr.construct, Expr.mapMarks, Expr.mapMarksPart_eq]

/-! ### Trees

Between two parts the next number has grown by what the first one took, and it has grown
by the same steps on both sides.  Nothing else is asked of the relabelling from the first
free number on, so the parts are taken one after another.
-/

/-- The walk over the tree commutes with relabelling. -/
def CommutesAt (r : Relabel) (s s' : Setting) (e : Expr) : Prop :=
  ∀ n, r.StepsFrom n → s'.expr (e.relabel r) (r.id n) = (s.expr e n).relabel r (Expr.relabel r)

theorem exprs_relabel_of (es : List Expr) : (∀ e ∈ es, CommutesAt r s s' e) →
    ∀ n, r.StepsFrom n → s'.exprs (es.map (Expr.relabel r)) (r.id n)
      = (s.exprs es n).relabel r (List.map (Expr.relabel r)) := by
  induction es with
  | nil =>
    intro _ n _
    rfl
  | cons e rest ih =>
    intro h n hn
    have hrest := ih (fun c hc => h c (by simp [hc])) _ (hn.mono (le_nextId_expr (s := s) e n))
    rw [List.map_cons, exprs_cons, exprs_cons, h e (by simp) n hn]
    simp only [Walked.relabel] at hrest ⊢
    rw [hrest, List.map_append, List.map_cons]

theorem part_relabel_of (part : Option (List Expr))
    (h : ∀ e ∈ part.getD [], CommutesAt r s s' e) (n : Nat) (hn : r.StepsFrom n) :
    s'.part (Expr.mapMarksPart r.mark part) (r.id n)
      = (s.part part n).relabel r (Expr.mapMarksPart r.mark) := by
  cases part with
  | none => rfl
  | some es =>
    rw [Expr.mapMarksPart, Expr.mapMarksAll_eq, part_some, part_some,
      exprs_relabel_of es h n hn]
    simp only [Walked.relabel, Expr.mapMarksPart, Expr.mapMarksAll_eq]

/-- **A walk over a relabelled tree is the walk over the tree, relabelled.** -/
theorem expr_relabel {e : Expr} : Agrees r s s' e.nodes → CommutesAt r s s' e := by
  induction e using Expr.children_induction with
  | step e ih =>
    intro h n hn
    have hparts : ∀ c ∈ e.children, CommutesAt r s s' c := fun c hc => ih c hc (h.child hc)
    cases e with
    | missing m => rfl
    | literal m value => rfl
    | ident m name => rfl
    | paren m inner =>
      rw [Expr.relabel, Expr.mapMarks, expr_paren, expr_paren,
        hparts inner (by simp [Expr.children]) n hn]
      rfl
    | unary m op operand =>
      rw [Expr.relabel, Expr.mapMarks, expr_unary, expr_unary,
        hparts operand (by simp [Expr.children]) n hn]
      rfl
    | binary m op left right =>
      have hright := hparts right (by simp [Expr.children]) _
        (hn.mono (le_nextId_expr (s := s) left n))
      rw [Expr.relabel, Expr.mapMarks, expr_binary, expr_binary,
        hparts left (by simp [Expr.children]) n hn]
      simp only [Walked.relabel] at hright ⊢
      rw [hright, List.map_append]
      rfl
    | member m receiver name =>
      rw [Expr.relabel, Expr.mapMarks, expr_member, expr_member,
        hparts receiver (by simp [Expr.children]) n hn]
      rfl
    | call m callee args =>
      have hargs := exprs_relabel_of args (fun c hc => hparts c (by simp [Expr.children, hc])) _
        (hn.mono (le_nextId_expr (s := s) callee n))
      rw [Expr.relabel, Expr.mapMarks, expr_call, expr_call,
        hparts callee (by simp [Expr.children]) n hn, Expr.mapMarksAll_eq]
      simp only [Walked.relabel] at hargs ⊢
      simp only [hargs, List.map_append, Expr.mapMarks, Expr.mapMarksAll_eq]
    | index m receiver args =>
      have hjudge := judge_relabel h
      by_cases hexpands : (s.judge (.index m receiver args)).Expands
      · obtain ⟨site, elements, hj⟩ := hexpands
        rw [hj] at hjudge
        rw [expr_of_expand s' hjudge, expr_of_expand s hj, h.options, ← hn n (Nat.le_refl n)]
        simp only [Walked.relabel, ← construct_relabel]
        rfl
      · have hkeeps : ¬ (s'.judge ((Expr.index m receiver args).relabel r)).Expands := by
          rw [hjudge, Verdict.expands_relabel]
          exact hexpands
        have hargs := exprs_relabel_of args (fun c hc => hparts c (by simp [Expr.children, hc])) _
          (hn.mono (le_nextId_expr (s := s) receiver n))
        rw [Expr.relabel, Expr.mapMarks, Expr.mapMarksAll_eq] at hkeeps hjudge ⊢
        rw [expr_index s' hkeeps, expr_index s hexpands, hjudge,
          hparts receiver (by simp [Expr.children]) n hn]
        simp only [Walked.relabel] at hargs ⊢
        simp only [hargs, Expr.mapMarks, Expr.mapMarksAll_eq, List.map_append,
          ← Verdict.notes_relabel]
        rfl
    | new m ty args init =>
      have hargs := part_relabel_of args (fun c hc => hparts c (by simp [Expr.children, hc])) n hn
      have hinit := part_relabel_of init (fun c hc => hparts c (by simp [Expr.children, hc])) _
        (hn.mono (le_nextId_part (s := s) args n))
      rw [Expr.relabel, Expr.mapMarks, expr_new, expr_new, hargs]
      simp only [Walked.relabel] at hinit ⊢
      simp only [hinit, List.map_append, Expr.mapMarks]

/-! ### Statements -/

/-- The walk over the statement commutes with relabelling. -/
def StmtCommutesAt (r : Relabel) (s s' : Setting) (st : Stmt) : Prop :=
  ∀ n, r.StepsFrom n → s'.stmt (st.relabel r) (r.id n) = (s.stmt st n).relabel r (Stmt.relabel r)

theorem stmts_relabel_of : ∀ {stmts : List Stmt}, (∀ p ∈ stmts, StmtCommutesAt r s s' p) →
    ∀ n, r.StepsFrom n → s'.stmts (stmts.map (Stmt.relabel r)) (r.id n)
      = (s.stmts stmts n).relabel r (List.map (Stmt.relabel r)) := by
  intro stmts
  induction stmts with
  | nil =>
    intro _ n _
    rfl
  | cons first rest ih =>
    intro h n hn
    have hrest := ih (fun p hp => h p (by simp [hp])) _
      (hn.mono (le_nextId_stmt (s := s) first n))
    rw [List.map_cons, stmts_cons, stmts_cons, h first (by simp) n hn]
    simp only [Walked.relabel] at hrest ⊢
    rw [hrest, List.map_append, List.map_cons]

theorem alternative_relabel_of {elseBranch : Option Stmt}
    (h : ∀ p ∈ elseBranch, StmtCommutesAt r s s' p) (n : Nat) (hn : r.StepsFrom n) :
    s'.alternative (elseBranch.map (Stmt.relabel r)) (r.id n)
      = (s.alternative elseBranch n).relabel r (Option.map (Stmt.relabel r)) := by
  cases elseBranch with
  | none => rfl
  | some other =>
    rw [Option.map_some, alternative_some, alternative_some, h other rfl n hn]
    rfl

theorem init_relabel_of {init : Option Expr} (h : ∀ e ∈ init, CommutesAt r s s' e) (n : Nat)
    (hn : r.StepsFrom n) : s'.init (init.map (Expr.relabel r)) (r.id n)
      = (s.init init n).relabel r (Option.map (Expr.relabel r)) := by
  cases init with
  | none => rfl
  | some e =>
    rw [Option.map_some, init_some, init_some, h e rfl n hn]
    rfl

/-- A walk over a relabelled statement is the walk over the statement, relabelled. -/
theorem stmt_relabel {st : Stmt} :
    (∀ e ∈ st.roots, CommutesAt r s s' e) → StmtCommutesAt r s s' st := by
  induction st using Stmt.parts_induction with
  | step st ih =>
    intro h n hn
    have hparts : ∀ p ∈ st.parts, StmtCommutesAt r s s' p := fun p hp =>
      ih p hp fun e he => h e (Stmt.mem_roots_of_mem_parts hp he)
    cases st with
    | declare ty name init line =>
      have hinit := init_relabel_of (fun e he => h e (by simpa [Stmt.roots] using he)) n hn
      show s'.stmt (.declare ty name (init.map (Expr.relabel r)) (r.line line)) (r.id n) = _
      rw [stmt_declare, stmt_declare, hinit]
      rfl
    | assign target value =>
      have hvalue := h value (by simp [Stmt.roots]) _
        (hn.mono (le_nextId_expr (s := s) target n))
      show s'.stmt (.assign (target.relabel r) (value.relabel r)) (r.id n) = _
      rw [stmt_assign, stmt_assign, h target (by simp [Stmt.roots]) n hn]
      simp only [Walked.relabel] at hvalue ⊢
      rw [hvalue, List.map_append]
      rfl
    | expr value =>
      show s'.stmt (.expr (value.relabel r)) (r.id n) = _
      rw [stmt_expr, stmt_expr, h value (by simp [Stmt.roots]) n hn]
      rfl
    | block stmts =>
      rw [Stmt.relabel_block, stmt_block, stmt_block,
        stmts_relabel_of (fun p hp => hparts p (by simpa [Stmt.parts] using hp)) n hn]
      simp only [Walked.relabel, Stmt.relabel_block]
    | branch cond thenBranch elseBranch =>
      have hle := le_nextId_expr (s := s) cond n
      have hthen := hparts thenBranch (by simp [Stmt.parts]) _ (hn.mono hle)
      have helse := alternative_relabel_of
        (fun p hp => hparts p (by simpa [Stmt.parts] using Or.inr hp)) _
        (hn.mono (Nat.le_trans hle (le_nextId_stmt (s := s) thenBranch _)))
      rw [Stmt.relabel_branch, stmt_branch, stmt_branch, h cond (by simp [Stmt.roots_branch]) n hn]
      simp only [Walked.relabel] at hthen helse ⊢
      rw [hthen]
      simp only [helse, Stmt.relabel_branch, List.map_append]
    | foreach ty name iter body =>
      have hbody := hparts body (by simp [Stmt.parts]) _
        (hn.mono (le_nextId_expr (s := s) iter n))
      show s'.stmt (.foreach ty name (iter.relabel r) (body.relabel r)) (r.id n) = _
      rw [stmt_foreach, stmt_foreach, h iter (by simp [Stmt.roots]) n hn]
      simp only [Walked.relabel] at hbody ⊢
      rw [hbody, List.map_append]
      rfl

/-- **A walk over relabelled statements is the walk over the statements, relabelled.** -/
theorem stmts_relabel {stmts : List Stmt}
    (h : Agrees r s s' (Expr.nodesOfAll (Stmt.rootsOfAll stmts))) {n : Nat}
    (hn : r.StepsFrom n) : s'.stmts (stmts.map (Stmt.relabel r)) (r.id n)
      = (s.stmts stmts n).relabel r (List.map (Stmt.relabel r)) := by
  refine stmts_relabel_of (fun p hp => stmt_relabel fun e he => expr_relabel (h.mono ?_)) n hn
  intro m hm
  rw [Expr.nodesOfAll_eq, Stmt.rootsOfAll_eq]
  exact List.mem_flatMap.mpr ⟨e, List.mem_flatMap.mpr ⟨p, hp, he⟩, hm⟩

end Setting

end Desugar

end ListSugar
