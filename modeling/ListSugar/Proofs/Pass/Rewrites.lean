/-
What the pass makes of a tree.

`Rewrites` says of two trees that one is the other with some list literals replaced by
their constructions.  Every walk gives such a tree; the relation forgets which literals
were offered and keeps of the new numbers only a bound, so it relates every tree to
itself.

What is shown about rewritten trees follows from it.  A construction binds as tightly as
the element access it stands for, and its parts are nodes that were there before, so a
tree that can be read stays one.
-/
import ListSugar.Proofs.Pass.Steps
import ListSugar.Proofs.Related
import ListSugar.Proofs.Shapes

namespace ListSugar

namespace Desugar

namespace Setting

variable {s : Setting} {k : Nat}

/-- The nodes of the elements of a node to be expanded are nodes below it, in order. -/
theorem elements_sublist {e : Expr} {site : Site} {elements : List Expr}
    (h : s.judge e = .expand site elements) :
    (elements.flatMap Expr.nodes).Sublist e.nodes := by
  obtain ⟨m, receiver, args, shape, rfl, hshape, rfl, -⟩ := judge_eq_expand h
  refine (Expr.elements_sublist_of_delimitedArgs? hshape).trans ?_
  rw [Expr.nodes, Expr.nodesOfAll_eq]
  exact (List.sublist_append_right _ _).trans (List.sublist_cons_self _ _)

theorem mem_nodes_of_judge {e : Expr} {site : Site} {elements : List Expr}
    (h : s.judge e = .expand site elements) {x : Expr} (hx : x ∈ elements) : x ∈ e.nodes := by
  refine (elements_sublist h).subset (List.mem_flatMap.mpr ⟨x, hx, Expr.self_mem_nodes x⟩)

/-! ### Rewritten trees

Every kind of node says what it may become.  Only an element access has a choice, between
its construction and an access with rewritten parts.
-/

/-- The tree `e'` is the construction that expands the list literal `e`, with a number from
`k` on. -/
def Replaces (s : Setting) (k : Nat) (e e' : Expr) : Prop :=
  ∃ site elements id, s.judge e = .expand site elements ∧ k ≤ id ∧
    e' = Expr.construct s.options.container site.ty ⟨id, e.pos⟩ elements

mutual

/-- The tree `e'` is `e` with some list literals expanded, and new numbers from `k` on. -/
def Rewrites (s : Setting) (k : Nat) : Expr → Expr → Prop
  | .missing m, e' => e' = .missing m
  | .literal m value, e' => e' = .literal m value
  | .ident m name, e' => e' = .ident m name
  | .paren m inner, e' => ∃ inner', s.Rewrites k inner inner' ∧ e' = .paren m inner'
  | .unary m op operand, e' => ∃ operand', s.Rewrites k operand operand' ∧ e' = .unary m op operand'
  | .binary m op left right, e' => ∃ left' right', s.Rewrites k left left' ∧
      s.Rewrites k right right' ∧ e' = .binary m op left' right'
  | .member m receiver name, e' =>
    ∃ receiver', s.Rewrites k receiver receiver' ∧ e' = .member m receiver' name
  | .call m callee args, e' => ∃ callee' args', s.Rewrites k callee callee' ∧
      s.RewritesAll k args args' ∧ e' = .call m callee' args'
  | .index m receiver args, e' => s.Replaces k (.index m receiver args) e' ∨
      ∃ receiver' args', s.Rewrites k receiver receiver' ∧ s.RewritesAll k args args' ∧
        e' = .index m receiver' args'
  | .new m ty args init, e' => ∃ args' init', s.RewritesPart k args args' ∧
      s.RewritesPart k init init' ∧ e' = .new m ty args' init'

/-- The trees are rewritten one by one. -/
def RewritesAll (s : Setting) (k : Nat) : List Expr → List Expr → Prop
  | [], es' => es' = []
  | e :: rest, es' => ∃ e' rest', s.Rewrites k e e' ∧ s.RewritesAll k rest rest' ∧ es' = e' :: rest'

/-- One part of a construction is rewritten. -/
def RewritesPart (s : Setting) (k : Nat) : Option (List Expr) → Option (List Expr) → Prop
  | none, part' => part' = none
  | some es, part' => ∃ es', s.RewritesAll k es es' ∧ part' = some es'

end

theorem rewritesAll_refl : ∀ {es : List Expr}, (∀ e ∈ es, s.Rewrites k e e) → s.RewritesAll k es es := by
  intro es
  induction es with
  | nil => intro _; rfl
  | cons e rest ih =>
    intro h
    exact ⟨e, rest, h e (by simp), ih fun c hc => h c (by simp [hc]), rfl⟩

theorem rewritesPart_refl {part : Option (List Expr)} (h : ∀ e ∈ part.getD [], s.Rewrites k e e) :
    s.RewritesPart k part part := by
  cases part with
  | none => rfl
  | some es => exact ⟨es, rewritesAll_refl h, rfl⟩

theorem Rewrites.refl (e : Expr) : s.Rewrites k e e := by
  induction e using Expr.children_induction with
  | step e ih =>
    cases e with
    | missing m => rfl
    | literal m value => rfl
    | ident m name => rfl
    | paren m inner => exact ⟨inner, ih inner (by simp [Expr.children]), rfl⟩
    | unary m op operand => exact ⟨operand, ih operand (by simp [Expr.children]), rfl⟩
    | binary m op left right =>
      exact ⟨left, right, ih left (by simp [Expr.children]), ih right (by simp [Expr.children]), rfl⟩
    | member m receiver name => exact ⟨receiver, ih receiver (by simp [Expr.children]), rfl⟩
    | call m callee args =>
      refine ⟨callee, args, ih callee (by simp [Expr.children]), ?_, rfl⟩
      exact rewritesAll_refl fun c hc => ih c (by simp [Expr.children, hc])
    | index m receiver args =>
      refine Or.inr ⟨receiver, args, ih receiver (by simp [Expr.children]), ?_, rfl⟩
      exact rewritesAll_refl fun c hc => ih c (by simp [Expr.children, hc])
    | new m ty args init =>
      refine ⟨args, init, rewritesPart_refl fun c hc => ?_, rewritesPart_refl fun c hc => ?_, rfl⟩
      · exact ih c (by simp [Expr.children, hc])
      · exact ih c (by simp [Expr.children, hc])

/-! ### Every walk rewrites

A walk numbers its constructions from where it starts, and the walks over later parts
start higher.  One bound serves them all, so the parts of a node are related by the same
relation.
-/

theorem exprs_rewrites : ∀ {es : List Expr},
    (∀ e ∈ es, ∀ {n}, k ≤ n → s.Rewrites k e (s.expr e n).value) →
    ∀ {n}, k ≤ n → s.RewritesAll k es (s.exprs es n).value := by
  intro es
  induction es with
  | nil =>
    intro _ n _
    rw [exprs_nil]
    rfl
  | cons e rest ih =>
    intro h n hn
    rw [exprs_cons]
    have hnext : k ≤ (s.expr e n).nextId := Nat.le_trans hn (le_nextId_expr e n)
    exact ⟨_, _, h e (by simp) hn, ih (fun c hc => h c (by simp [hc])) hnext, rfl⟩

theorem part_rewrites {part : Option (List Expr)}
    (h : ∀ e ∈ part.getD [], ∀ {n}, k ≤ n → s.Rewrites k e (s.expr e n).value) {n : Nat}
    (hn : k ≤ n) : s.RewritesPart k part (s.part part n).value := by
  cases part with
  | none =>
    rw [part_none]
    rfl
  | some es =>
    rw [part_some]
    exact ⟨_, exprs_rewrites h hn, rfl⟩

/-- **A walk expands list literals and changes nothing else.** -/
theorem expr_rewrites (e : Expr) : ∀ {n}, k ≤ n → s.Rewrites k e (s.expr e n).value := by
  induction e using Expr.children_induction with
  | step e ih =>
    intro n hn
    cases e with
    | missing m =>
      rw [expr_missing]
      rfl
    | literal m value =>
      rw [expr_literal]
      rfl
    | ident m name =>
      rw [expr_ident]
      rfl
    | paren m inner =>
      rw [expr_paren]
      exact ⟨_, ih inner (by simp [Expr.children]) hn, rfl⟩
    | unary m op operand =>
      rw [expr_unary]
      exact ⟨_, ih operand (by simp [Expr.children]) hn, rfl⟩
    | binary m op left right =>
      rw [expr_binary]
      have hnext : k ≤ (s.expr left n).nextId := Nat.le_trans hn (le_nextId_expr left n)
      exact ⟨_, _, ih left (by simp [Expr.children]) hn,
        ih right (by simp [Expr.children]) hnext, rfl⟩
    | member m receiver name =>
      rw [expr_member]
      exact ⟨_, ih receiver (by simp [Expr.children]) hn, rfl⟩
    | call m callee args =>
      rw [expr_call]
      have hnext : k ≤ (s.expr callee n).nextId := Nat.le_trans hn (le_nextId_expr callee n)
      refine ⟨_, _, ih callee (by simp [Expr.children]) hn, ?_, rfl⟩
      exact exprs_rewrites (fun c hc => ih c (by simp [Expr.children, hc])) hnext
    | index m receiver args =>
      by_cases hexpand : (s.judge (.index m receiver args)).Expands
      · obtain ⟨site, elements, hj⟩ := hexpand
        rw [s.expr_of_expand hj]
        exact Or.inl ⟨site, elements, n, hj, hn, rfl⟩
      · rw [s.expr_index hexpand]
        have hnext : k ≤ (s.expr receiver n).nextId := Nat.le_trans hn (le_nextId_expr receiver n)
        refine Or.inr ⟨_, _, ih receiver (by simp [Expr.children]) hn, ?_, rfl⟩
        exact exprs_rewrites (fun c hc => ih c (by simp [Expr.children, hc])) hnext
    | new m ty args init =>
      rw [expr_new]
      have hnext : k ≤ (s.part args n).nextId := Nat.le_trans hn (le_nextId_part args n)
      refine ⟨_, _, part_rewrites (fun c hc => ?_) hn, part_rewrites (fun c hc => ?_) hnext, rfl⟩
      · exact ih c (by simp [Expr.children, hc])
      · exact ih c (by simp [Expr.children, hc])

theorem stmts_related_of : ∀ {stmts : List Stmt},
    (∀ p ∈ stmts, ∀ {n}, k ≤ n → p.Related (s.Rewrites k) (s.stmt p n).value) →
    ∀ {n}, k ≤ n → Stmt.RelatedAll (s.Rewrites k) stmts (s.stmts stmts n).value := by
  intro stmts
  induction stmts with
  | nil =>
    intro _ n _
    rw [stmts_nil]
    rfl
  | cons first rest ih =>
    intro h n hn
    rw [stmts_cons]
    have hnext : k ≤ (s.stmt first n).nextId := Nat.le_trans hn (le_nextId_stmt first n)
    exact ⟨_, _, h first (by simp) hn, ih (fun p hp => h p (by simp [hp])) hnext, rfl⟩

/-- A walk over a statement rewrites its expressions and keeps everything else. -/
theorem stmt_related (st : Stmt) :
    ∀ {n}, k ≤ n → st.Related (s.Rewrites k) (s.stmt st n).value := by
  induction st using Stmt.parts_induction with
  | step st ih =>
    intro n hn
    cases st with
    | declare ty name init line =>
      rw [stmt_declare]
      cases init with
      | none => exact ⟨none, rfl, rfl⟩
      | some e =>
        rw [init_some]
        exact ⟨_, ⟨_, expr_rewrites e hn, rfl⟩, rfl⟩
    | assign target value =>
      rw [stmt_assign]
      have hnext : k ≤ (s.expr target n).nextId := Nat.le_trans hn (le_nextId_expr target n)
      exact ⟨_, _, expr_rewrites target hn, expr_rewrites value hnext, rfl⟩
    | expr value =>
      rw [stmt_expr]
      exact ⟨_, expr_rewrites value hn, rfl⟩
    | block stmts =>
      rw [stmt_block]
      exact ⟨_, stmts_related_of (fun p hp => ih p (by simpa [Stmt.parts] using hp)) hn, rfl⟩
    | branch cond thenBranch elseBranch =>
      rw [stmt_branch]
      have hcond : k ≤ (s.expr cond n).nextId := Nat.le_trans hn (le_nextId_expr cond n)
      have hthen : k ≤ (s.stmt thenBranch (s.expr cond n).nextId).nextId :=
        Nat.le_trans hcond (le_nextId_stmt thenBranch _)
      refine ⟨_, _, _, expr_rewrites cond hn, ih thenBranch (by simp [Stmt.parts]) hcond, ?_, rfl⟩
      cases elseBranch with
      | none =>
        rw [alternative_none]
        rfl
      | some other =>
        rw [alternative_some]
        exact ⟨_, ih other (by simp [Stmt.parts]) hthen, rfl⟩
    | foreach ty name iter body =>
      rw [stmt_foreach]
      have hnext : k ≤ (s.expr iter n).nextId := Nat.le_trans hn (le_nextId_expr iter n)
      exact ⟨_, _, expr_rewrites iter hn, ih body (by simp [Stmt.parts]) hnext, rfl⟩

theorem stmts_related (stmts : List Stmt) {n : Nat} (hn : k ≤ n) :
    Stmt.RelatedAll (s.Rewrites k) stmts (s.stmts stmts n).value :=
  stmts_related_of (fun p _ => stmt_related p) hn

/-! ### The nodes of a rewritten tree

What holds of all nodes is shown by two cases: a node is replaced, and its parts are the
elements of a literal, or it is kept, and its parts are rewritten one by one.
-/

/-- A construction in place of a literal has the elements for its parts. -/
theorem Replaces.exists_new {e e' : Expr} (h : s.Replaces k e e') : ∃ m ty args init,
    e' = .new m ty args init ∧ (args.isSome ∨ init.isSome) ∧
      Expr.loneMissing (args.getD []) = false ∧ ∀ c ∈ e'.children, c ∈ e.nodes := by
  obtain ⟨site, elements, id, hj, -, rfl⟩ := h
  cases elements with
  | nil =>
    refine ⟨_, _, some [], none, rfl, Or.inl rfl, rfl, fun c hc => ?_⟩
    cases hc
  | cons first rest =>
    refine ⟨_, _, none, some (first :: rest), rfl, Or.inr rfl, rfl, fun c hc => ?_⟩
    exact mem_nodes_of_judge hj hc

theorem RewritesAll.exists_mem : ∀ {es es' : List Expr}, s.RewritesAll k es es' →
    ∀ c' ∈ es', ∃ c ∈ es, s.Rewrites k c c' := by
  intro es
  induction es with
  | nil =>
    rintro es' rfl c' hc'
    cases hc'
  | cons e rest ih =>
    rintro es' ⟨e', rest', he, hrest, rfl⟩ c' hc'
    rcases List.mem_cons.mp hc' with rfl | hc'
    · exact ⟨e, by simp, he⟩
    · obtain ⟨c, hc, hR⟩ := ih hrest c' hc'
      exact ⟨c, by simp [hc], hR⟩

theorem RewritesPart.exists_mem {part part' : Option (List Expr)} (h : s.RewritesPart k part part') :
    ∀ c' ∈ part'.getD [], ∃ c ∈ part.getD [], s.Rewrites k c c' := by
  cases part with
  | none =>
    obtain rfl : part' = none := h
    intro c' hc'
    cases hc'
  | some es =>
    obtain ⟨es', hes, rfl⟩ := h
    exact hes.exists_mem

/-- A node that is not replaced keeps its mark, its words and how tightly it binds. -/
structure Keeps (s : Setting) (k : Nat) (e e' : Expr) : Prop where
  mark : e'.mark = e.mark
  words : e'.words = e.words
  rank : e'.rank = e.rank
  isMissing : e'.isMissing = e.isMissing
  child : ∀ c' ∈ e'.children, ∃ c ∈ e.children, s.Rewrites k c c'

/-- **A rewritten node is replaced, or kept with its parts rewritten.** -/
theorem Rewrites.replaces_or_keeps {e e' : Expr} (h : s.Rewrites k e e') :
    s.Replaces k e e' ∨ s.Keeps k e e' := by
  cases e with
  | missing m =>
    obtain rfl : e' = .missing m := h
    exact Or.inr ⟨rfl, rfl, rfl, rfl, fun c' hc' => by cases hc'⟩
  | literal m value =>
    obtain rfl : e' = .literal m value := h
    exact Or.inr ⟨rfl, rfl, rfl, rfl, fun c' hc' => by cases hc'⟩
  | ident m name =>
    obtain rfl : e' = .ident m name := h
    exact Or.inr ⟨rfl, rfl, rfl, rfl, fun c' hc' => by cases hc'⟩
  | paren m inner =>
    obtain ⟨inner', hinner, rfl⟩ := h
    refine Or.inr ⟨rfl, rfl, rfl, rfl, fun c' hc' => ?_⟩
    obtain rfl : c' = inner' := by simpa [Expr.children] using hc'
    exact ⟨inner, by simp [Expr.children], hinner⟩
  | unary m op operand =>
    obtain ⟨operand', hoperand, rfl⟩ := h
    refine Or.inr ⟨rfl, rfl, rfl, rfl, fun c' hc' => ?_⟩
    obtain rfl : c' = operand' := by simpa [Expr.children] using hc'
    exact ⟨operand, by simp [Expr.children], hoperand⟩
  | binary m op left right =>
    obtain ⟨left', right', hleft, hright, rfl⟩ := h
    refine Or.inr ⟨rfl, rfl, rfl, rfl, fun c' hc' => ?_⟩
    rcases (by simpa [Expr.children] using hc' : c' = left' ∨ c' = right') with rfl | rfl
    · exact ⟨left, by simp [Expr.children], hleft⟩
    · exact ⟨right, by simp [Expr.children], hright⟩
  | member m receiver name =>
    obtain ⟨receiver', hreceiver, rfl⟩ := h
    refine Or.inr ⟨rfl, rfl, rfl, rfl, fun c' hc' => ?_⟩
    obtain rfl : c' = receiver' := by simpa [Expr.children] using hc'
    exact ⟨receiver, by simp [Expr.children], hreceiver⟩
  | call m callee args =>
    obtain ⟨callee', args', hcallee, hargs, rfl⟩ := h
    refine Or.inr ⟨rfl, rfl, rfl, rfl, fun c' hc' => ?_⟩
    rcases List.mem_cons.mp hc' with rfl | hc'
    · exact ⟨callee, by simp [Expr.children], hcallee⟩
    · obtain ⟨c, hc, hR⟩ := hargs.exists_mem c' hc'
      exact ⟨c, by simp [Expr.children, hc], hR⟩
  | index m receiver args =>
    rcases h with h | ⟨receiver', args', hreceiver, hargs, rfl⟩
    · exact Or.inl h
    · refine Or.inr ⟨rfl, rfl, rfl, rfl, fun c' hc' => ?_⟩
      rcases List.mem_cons.mp hc' with rfl | hc'
      · exact ⟨receiver, by simp [Expr.children], hreceiver⟩
      · obtain ⟨c, hc, hR⟩ := hargs.exists_mem c' hc'
        exact ⟨c, by simp [Expr.children, hc], hR⟩
  | new m ty args init =>
    obtain ⟨args', init', hargs, hinit, rfl⟩ := h
    refine Or.inr ⟨rfl, rfl, rfl, rfl, fun c' hc' => ?_⟩
    rcases List.mem_append.mp hc' with hc' | hc'
    · obtain ⟨c, hc, hR⟩ := hargs.exists_mem c' hc'
      exact ⟨c, by simp [Expr.children, hc], hR⟩
    · obtain ⟨c, hc, hR⟩ := hinit.exists_mem c' hc'
      exact ⟨c, by simp [Expr.children, hc], hR⟩

theorem RewritesAll.append {bs bs' : List Expr} (hbs : s.RewritesAll k bs bs') :
    ∀ {as as' : List Expr}, s.RewritesAll k as as' → s.RewritesAll k (as ++ bs) (as' ++ bs') := by
  intro as
  induction as with
  | nil =>
    rintro as' rfl
    exact hbs
  | cons e rest ih =>
    rintro as' ⟨e', rest', he, hrest, rfl⟩
    exact ⟨e', rest' ++ bs', he, ih hrest, rfl⟩

theorem RewritesPart.getD {part part' : Option (List Expr)} (h : s.RewritesPart k part part') :
    s.RewritesAll k (part.getD []) (part'.getD []) := by
  cases part with
  | none =>
    obtain rfl : part' = none := h
    rfl
  | some es =>
    obtain ⟨es', hes, rfl⟩ := h
    exact hes

/-- **A rewritten node is replaced, or its parts are rewritten one by one.** -/
theorem Rewrites.replaces_or_children {e e' : Expr} (h : s.Rewrites k e e') :
    s.Replaces k e e' ∨ e'.mark = e.mark ∧ s.RewritesAll k e.children e'.children := by
  cases e with
  | missing m =>
    obtain rfl : e' = .missing m := h
    exact Or.inr ⟨rfl, rfl⟩
  | literal m value =>
    obtain rfl : e' = .literal m value := h
    exact Or.inr ⟨rfl, rfl⟩
  | ident m name =>
    obtain rfl : e' = .ident m name := h
    exact Or.inr ⟨rfl, rfl⟩
  | paren m inner =>
    obtain ⟨inner', hinner, rfl⟩ := h
    exact Or.inr ⟨rfl, inner', [], hinner, rfl, rfl⟩
  | unary m op operand =>
    obtain ⟨operand', hoperand, rfl⟩ := h
    exact Or.inr ⟨rfl, operand', [], hoperand, rfl, rfl⟩
  | binary m op left right =>
    obtain ⟨left', right', hleft, hright, rfl⟩ := h
    exact Or.inr ⟨rfl, left', [right'], hleft, ⟨right', [], hright, rfl, rfl⟩, rfl⟩
  | member m receiver name =>
    obtain ⟨receiver', hreceiver, rfl⟩ := h
    exact Or.inr ⟨rfl, receiver', [], hreceiver, rfl, rfl⟩
  | call m callee args =>
    obtain ⟨callee', args', hcallee, hargs, rfl⟩ := h
    exact Or.inr ⟨rfl, callee', args', hcallee, hargs, rfl⟩
  | index m receiver args =>
    rcases h with h | ⟨receiver', args', hreceiver, hargs, rfl⟩
    · exact Or.inl h
    · exact Or.inr ⟨rfl, receiver', args', hreceiver, hargs, rfl⟩
  | new m ty args init =>
    obtain ⟨args', init', hargs, hinit, rfl⟩ := h
    exact Or.inr ⟨rfl, hinit.getD.append hargs.getD⟩

/-- **Every node of a rewritten tree is a node of the tree, rewritten.** -/
theorem Rewrites.exists_node {e : Expr} : ∀ {e' : Expr}, s.Rewrites k e e' →
    ∀ n' ∈ e'.nodes, ∃ n ∈ e.nodes, s.Rewrites k n n' := by
  induction e using Expr.children_induction with
  | step e ih =>
    intro e' h n' hn'
    rcases Expr.mem_nodes_iff.mp hn' with rfl | ⟨c', hc', hn'⟩
    · exact ⟨e, Expr.self_mem_nodes e, h⟩
    rcases h.replaces_or_keeps with hreplace | hkeep
    · -- The parts of a construction are nodes of the literal, taken as they are.
      obtain ⟨m, ty, args, init, -, -, -, hparts⟩ := hreplace.exists_new
      exact ⟨n', Expr.mem_nodes_trans hn' (hparts c' hc'), .refl n'⟩
    · obtain ⟨c, hc, hR⟩ := hkeep.child c' hc'
      obtain ⟨n, hn, hRn⟩ := ih c hc hR n' hn'
      exact ⟨n, Expr.mem_nodes_iff.mpr (Or.inr ⟨c, hc, hn⟩), hRn⟩

/-! ### Rewritten trees can be read

A construction binds as tightly as the access it stands for and does not end in a missing
operand either.  So whatever stands around it is read as before.
-/

theorem Rewrites.rank_eq {e e' : Expr} (h : s.Rewrites k e e') : e'.rank = e.rank := by
  rcases h.replaces_or_keeps with hreplace | hkeep
  · obtain ⟨m, ty, args, init, rfl, -⟩ := hreplace.exists_new
    obtain ⟨site, elements, id, hj, -⟩ := hreplace
    obtain ⟨m', receiver, args', shape, rfl, -⟩ := judge_eq_expand hj
    rfl
  · exact hkeep.rank

theorem Rewrites.isMissing_eq {e e' : Expr} (h : s.Rewrites k e e') :
    e'.isMissing = e.isMissing := by
  rcases h.replaces_or_keeps with hreplace | hkeep
  · obtain ⟨m, ty, args, init, rfl, -⟩ := hreplace.exists_new
    obtain ⟨site, elements, id, hj, -⟩ := hreplace
    obtain ⟨m', receiver, args', shape, rfl, -⟩ := judge_eq_expand hj
    rfl
  · exact hkeep.isMissing

theorem Rewrites.endsMissing_eq {e : Expr} : ∀ {e' : Expr}, s.Rewrites k e e' →
    e'.endsMissing = e.endsMissing := by
  induction e using Expr.children_induction with
  | step e ih =>
    intro e' h
    cases e with
    | missing m => rw [show e' = .missing m from h]
    | literal m value => rw [show e' = .literal m value from h]
    | ident m name => rw [show e' = .ident m name from h]
    | paren m inner =>
      obtain ⟨inner', -, rfl⟩ := h
      rfl
    | unary m op operand =>
      obtain ⟨operand', hoperand, rfl⟩ := h
      rw [Expr.endsMissing, Expr.endsMissing]
      exact ih operand (by simp [Expr.children]) hoperand
    | binary m op left right =>
      obtain ⟨left', right', -, hright, rfl⟩ := h
      rw [Expr.endsMissing, Expr.endsMissing]
      exact ih right (by simp [Expr.children]) hright
    | member m receiver name =>
      obtain ⟨receiver', -, rfl⟩ := h
      rfl
    | call m callee args =>
      obtain ⟨callee', args', -, -, rfl⟩ := h
      rfl
    | index m receiver args =>
      rcases h with h | ⟨receiver', args', -, -, rfl⟩
      · obtain ⟨m', ty, args', init', rfl, -⟩ := h.exists_new
        rfl
      · rfl
    | new m ty args init =>
      obtain ⟨args', init', -, -, rfl⟩ := h
      rfl

theorem RewritesAll.loneMissing_eq {es es' : List Expr} (h : s.RewritesAll k es es') :
    Expr.loneMissing es' = Expr.loneMissing es := by
  match es with
  | [] =>
    obtain rfl : es' = [] := h
    rfl
  | [e] =>
    obtain ⟨e', rest', he, hrest, rfl⟩ := h
    obtain rfl : rest' = [] := hrest
    exact he.isMissing_eq
  | _ :: _ :: _ =>
    obtain ⟨e', rest', -, ⟨e'', rest'', -, -, rfl⟩, rfl⟩ := h
    rfl

theorem RewritesPart.isSome_eq {part part' : Option (List Expr)} (h : s.RewritesPart k part part') :
    part'.isSome = part.isSome := by
  cases part with
  | none => rw [show part' = none from h]
  | some es =>
    obtain ⟨es', -, rfl⟩ := h
    rfl

theorem RewritesPart.loneMissing_eq {part part' : Option (List Expr)}
    (h : s.RewritesPart k part part') :
    Expr.loneMissing (part'.getD []) = Expr.loneMissing (part.getD []) := by
  cases part with
  | none => rw [show part' = none from h]
  | some es =>
    obtain ⟨es', hes, rfl⟩ := h
    exact hes.loneMissing_eq

/-- Rewriting keeps what makes a node readable. -/
theorem Rewrites.formed {e e' : Expr} (h : s.Rewrites k e e') (hformed : e.Formed) : e'.Formed := by
  cases e with
  | missing m => rwa [show e' = .missing m from h]
  | literal m value => rwa [show e' = .literal m value from h]
  | ident m name => rwa [show e' = .ident m name from h]
  | paren m inner =>
    obtain ⟨inner', -, rfl⟩ := h
    exact trivial
  | unary m op operand =>
    obtain ⟨operand', hoperand, rfl⟩ := h
    simpa [Expr.Formed, hoperand.rank_eq] using hformed
  | binary m op left right =>
    obtain ⟨left', right', hleft, hright, rfl⟩ := h
    simpa [Expr.Formed, hleft.rank_eq, hright.rank_eq, hleft.endsMissing_eq] using hformed
  | member m receiver name =>
    obtain ⟨receiver', hreceiver, rfl⟩ := h
    simpa [Expr.Formed, hreceiver.rank_eq, hreceiver.isMissing_eq] using hformed
  | call m callee args =>
    obtain ⟨callee', args', hcallee, hargs, rfl⟩ := h
    simpa [Expr.Formed, hcallee.rank_eq, hcallee.isMissing_eq, hargs.loneMissing_eq] using hformed
  | index m receiver args =>
    rcases h with h | ⟨receiver', args', hreceiver, hargs, rfl⟩
    · obtain ⟨m', ty, args', init', rfl, hpart, hlone, -⟩ := h.exists_new
      exact ⟨hpart, hlone⟩
    · simpa [Expr.Formed, hreceiver.rank_eq, hargs.loneMissing_eq] using hformed
  | new m ty args init =>
    obtain ⟨args', init', hargs, hinit, rfl⟩ := h
    simpa [Expr.Formed, hargs.isSome_eq, hinit.isSome_eq, hargs.loneMissing_eq] using hformed

/-- **A readable tree stays readable when its literals are expanded.** -/
theorem Rewrites.wellFormed {e e' : Expr} (h : s.Rewrites k e e') (hwf : e.WellFormed) :
    e'.WellFormed := by
  intro n' hn'
  obtain ⟨n, hn, hR⟩ := h.exists_node n' hn'
  exact hR.formed (hwf n hn)

theorem RewritesAll.eq_of_forall : ∀ {es es' : List Expr}, s.RewritesAll k es es' →
    (∀ c ∈ es, ∀ c' ∈ es', s.Rewrites k c c' → c' = c) → es' = es := by
  intro es
  induction es with
  | nil =>
    intro es' h _
    exact h
  | cons e rest ih =>
    rintro es' ⟨e', rest', he, hrest, rfl⟩ heq
    rw [heq e (by simp) e' (by simp) he,
      ih hrest fun c hc c' hc' => heq c (by simp [hc]) c' (by simp [hc'])]

theorem RewritesPart.eq_of_forall {part part' : Option (List Expr)}
    (h : s.RewritesPart k part part')
    (heq : ∀ c ∈ part.getD [], ∀ c' ∈ part'.getD [], s.Rewrites k c c' → c' = c) :
    part' = part := by
  cases part with
  | none => exact h
  | some es =>
    obtain ⟨es', hes, rfl⟩ := h
    rw [hes.eq_of_forall heq]

/-- A tree none of whose nodes is replaced stays as it is. -/
theorem Rewrites.eq_of_not_replaces {e : Expr} : ∀ {e' : Expr}, s.Rewrites k e e' →
    (∀ n ∈ e.nodes, ∀ n' ∈ e'.nodes, ¬ s.Replaces k n n') → e' = e := by
  induction e using Expr.children_induction with
  | step e ih =>
    intro e' h hno
    have hpart : ∀ c ∈ e.children, ∀ c' ∈ e'.children, s.Rewrites k c c' → c' = c := by
      intro c hc c' hc' hR
      refine ih c hc hR fun n hn n' hn' => hno n ?_ n' ?_
      · exact Expr.mem_nodes_iff.mpr (Or.inr ⟨c, hc, hn⟩)
      · exact Expr.mem_nodes_iff.mpr (Or.inr ⟨c', hc', hn'⟩)
    cases e with
    | missing m => exact h
    | literal m value => exact h
    | ident m name => exact h
    | paren m inner =>
      obtain ⟨inner', hinner, rfl⟩ := h
      rw [hpart inner (by simp [Expr.children]) inner' (by simp [Expr.children]) hinner]
    | unary m op operand =>
      obtain ⟨operand', hoperand, rfl⟩ := h
      rw [hpart operand (by simp [Expr.children]) operand' (by simp [Expr.children]) hoperand]
    | binary m op left right =>
      obtain ⟨left', right', hleft, hright, rfl⟩ := h
      rw [hpart left (by simp [Expr.children]) left' (by simp [Expr.children]) hleft,
        hpart right (by simp [Expr.children]) right' (by simp [Expr.children]) hright]
    | member m receiver name =>
      obtain ⟨receiver', hreceiver, rfl⟩ := h
      rw [hpart receiver (by simp [Expr.children]) receiver' (by simp [Expr.children]) hreceiver]
    | call m callee args =>
      obtain ⟨callee', args', hcallee, hargs, rfl⟩ := h
      rw [hpart callee (by simp [Expr.children]) callee' (by simp [Expr.children]) hcallee,
        hargs.eq_of_forall fun c hc c' hc' =>
          hpart c (by simp [Expr.children, hc]) c' (by simp [Expr.children, hc'])]
    | index m receiver args =>
      rcases h with h | ⟨receiver', args', hreceiver, hargs, rfl⟩
      · exact absurd h (hno _ (Expr.self_mem_nodes _) _ (Expr.self_mem_nodes _))
      · rw [hpart receiver (by simp [Expr.children]) receiver' (by simp [Expr.children]) hreceiver,
          hargs.eq_of_forall fun c hc c' hc' =>
            hpart c (by simp [Expr.children, hc]) c' (by simp [Expr.children, hc'])]
    | new m ty args init =>
      obtain ⟨args', init', hargs, hinit, rfl⟩ := h
      rw [hargs.eq_of_forall fun c hc c' hc' =>
          hpart c (by simp [Expr.children, hc]) c' (by simp [Expr.children, hc']),
        hinit.eq_of_forall fun c hc c' hc' =>
          hpart c (by simp [Expr.children, hc]) c' (by simp [Expr.children, hc'])]

/-- A rewritten tree without constructions is the tree itself. -/
theorem Rewrites.eq_of_not_has_new {e e' : Expr} (h : s.Rewrites k e e')
    (hnew : ¬ e'.Has (.keyword .new)) : e' = e := by
  refine h.eq_of_not_replaces fun n _ n' hn' hreplace => hnew ⟨n', hn', ?_⟩
  obtain ⟨m, ty, args, init, rfl, -⟩ := hreplace.exists_new
  simp [Expr.words]

theorem keepsReadable (s : Setting) (k : Nat) : Stmt.KeepsReadable (s.Rewrites k) where
  wellFormed := Rewrites.wellFormed
  endsMissing := Rewrites.endsMissing_eq
  declaring := by
    intro e e' h hdecl
    rwa [← h.eq_of_not_has_new hdecl.not_has_new]

/-- **A readable program stays readable when its literals are expanded.** -/
theorem allWellFormed_stmts {stmts : List Stmt} (h : Stmt.AllWellFormed stmts) (n : Nat) :
    Stmt.AllWellFormed (s.stmts stmts n).value :=
  (stmts_related stmts (Nat.le_refl n)).wellFormed (s.keepsReadable n) h

/-! ### The words of a rewritten tree -/

/-- A word of a rewritten tree is one of the tree, or names the type of a construction that
replaces one of its literals. -/
theorem Rewrites.has {e e' : Expr} (h : s.Rewrites k e e') {t : Token} (ht : e'.Has t) :
    e.Has t ∨ ∃ n ∈ e.nodes, ∃ n', s.Replaces k n n' ∧ t ∈ n'.words := by
  obtain ⟨n', hn', hword⟩ := ht
  obtain ⟨n, hn, hR⟩ := h.exists_node n' hn'
  rcases hR.replaces_or_keeps with hreplace | hkeep
  · exact Or.inr ⟨n, hn, n', hreplace, hword⟩
  · exact Or.inl ⟨n, hn, hkeep.words ▸ hword⟩

/-- The words of a construction that replaces a literal, by its container and the type of
its first element. -/
theorem Replaces.mem_words {e e' : Expr} (h : s.Replaces k e e') {t : Token} (ht : t ∈ e'.words) :
    t = .keyword .new ∨ t = .ident s.options.container ∨ t = .symbol .lt ∨ t = .symbol .gt ∨
      t = .ident "object" ∨ ∃ x ∈ e.nodes, t ∈ (s.typeOf x).toTypeExpr.tokens := by
  obtain ⟨site, elements, id, hj, -, rfl⟩ := h
  have hty : site.ty = Expr.elementType s.typeOf elements := by
    obtain ⟨m, receiver, args, shape, -, -, -, rfl⟩ := judge_eq_expand hj
    rfl
  cases elements with
  | nil =>
    simp [Expr.construct, Expr.words, TypeExpr.simple, TypeExpr.tokens,
      TypeExpr.tokensAfterComma] at ht
    rcases ht with h | h | h | h | h <;> simp [h]
  | cons first rest =>
    rw [hty] at ht
    simp [Expr.construct, Expr.words, TypeExpr.tokens, TypeExpr.tokensAfterComma,
      Expr.elementType] at ht
    rcases ht with h | h | h | h | h
    · simp [h]
    · simp [h]
    · simp [h]
    · have hx := mem_nodes_of_judge hj (x := first) (by simp)
      exact Or.inr (Or.inr (Or.inr (Or.inr (Or.inr ⟨first, hx, h⟩))))
    · simp [h]

end Setting

end Desugar

/-! ### Programs -/

namespace Program

/-- A run rewrites the expressions of a program and keeps everything else. -/
theorem related_desugar (p : Program) (options : Options) :
    Stmt.RelatedAll ((p.setting options).Rewrites p.nextId) p.stmts
      (p.desugar options).program.stmts :=
  Desugar.Setting.stmts_related p.stmts (Nat.le_refl p.nextId)

/-- Every node of the program that a run gives is a node of the program, rewritten. -/
theorem exists_rewritten {p : Program} {options : Options} {n' : Expr}
    (hn' : n' ∈ (p.desugar options).program.nodes) :
    ∃ n ∈ p.nodes, (p.setting options).Rewrites p.nextId n n' := by
  rw [nodes_eq_flatMap, List.mem_flatMap] at hn'
  obtain ⟨e', he', hn'⟩ := hn'
  obtain ⟨e, he, hR⟩ := (p.related_desugar options).exists_root e' he'
  obtain ⟨n, hn, hRn⟩ := hR.exists_node n' hn'
  exact ⟨n, mem_nodes_of_mem_roots he hn, hRn⟩

end Program

end ListSugar
