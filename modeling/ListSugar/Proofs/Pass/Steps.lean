/-
How the pass walks one node.

Each equation says what a walk over one kind of node gives, where it leaves the numbers
and what it notes, in terms of the walks over the parts.  Nothing else about the pass
unfolds its definition.

The first thing that follows is how the numbers move: a walk takes one for every site
that it notes as expanded, and no other.
-/
import ListSugar.Proofs.Trees
import ListSugar.Source

namespace ListSugar

namespace Desugar

@[simp] theorem Pass.pure_apply {α : Type} (a : α) (n : Nat) :
    (pure a : Pass α) n = ⟨a, n, []⟩ := rfl

@[simp] theorem Pass.bind_apply {α β : Type} (p : Pass α) (f : α → Pass β) (n : Nat) :
    (p >>= f) n =
      let first := p n
      let second := f first.value first.nextId
      ⟨second.value, second.nextId, first.visits ++ second.visits⟩ := rfl

/-- One walk whose value is put into a node. -/
theorem Pass.map_apply {α β : Type} (p : Pass α) (f : α → β) (n : Nat) :
    (do return f (← p) : Pass β) n = ⟨f (p n).value, (p n).nextId, (p n).visits⟩ := by
  simp

/-- Two walks, one after the other, whose values are put into a node. -/
theorem Pass.map₂_apply {α β γ : Type} (p : Pass α) (q : Pass β) (f : α → β → γ) (n : Nat) :
    (do return f (← p) (← q) : Pass γ) n =
      let first := p n
      let second := q first.nextId
      ⟨f first.value second.value, second.nextId, first.visits ++ second.visits⟩ := by
  simp

/-- What is noted at a node that is not expanded. -/
def Verdict.notes (pos : Pos) : Verdict → List Visit
  | .other => []
  | .access => [.access pos]
  | .leave site => [.literal site]
  | .expand site _ => [.literal site]

/-- The node is to be expanded. -/
def Verdict.Expands (v : Verdict) : Prop := ∃ site elements, v = .expand site elements

@[simp] theorem Verdict.not_expands_other : ¬ Verdict.other.Expands := by
  rintro ⟨site, elements, h⟩
  cases h

@[simp] theorem Verdict.not_expands_access : ¬ Verdict.access.Expands := by
  rintro ⟨site, elements, h⟩
  cases h

@[simp] theorem Verdict.not_expands_leave (site : Site) : ¬ (Verdict.leave site).Expands := by
  rintro ⟨site, elements, h⟩
  cases h

namespace Setting

variable (s : Setting)

/-! ### Expressions -/

theorem expr_missing (m : Mark) (n : Nat) : s.expr (.missing m) n = ⟨.missing m, n, []⟩ := rfl

theorem expr_literal (m : Mark) (value : Literal) (n : Nat) :
    s.expr (.literal m value) n = ⟨.literal m value, n, []⟩ := rfl

theorem expr_ident (m : Mark) (name : String) (n : Nat) :
    s.expr (.ident m name) n = ⟨.ident m name, n, []⟩ := rfl

theorem expr_paren (m : Mark) (inner : Expr) (n : Nat) :
    s.expr (.paren m inner) n = ⟨.paren m (s.expr inner n).value, (s.expr inner n).nextId,
      (s.expr inner n).visits⟩ := by
  exact Pass.map_apply (s.expr inner) (Expr.paren m) n

theorem expr_unary (m : Mark) (op : UnaryOp) (operand : Expr) (n : Nat) :
    s.expr (.unary m op operand) n = ⟨.unary m op (s.expr operand n).value,
      (s.expr operand n).nextId, (s.expr operand n).visits⟩ := by
  exact Pass.map_apply (s.expr operand) (Expr.unary m op) n

theorem expr_binary (m : Mark) (op : BinaryOp) (left right : Expr) (n : Nat) :
    s.expr (.binary m op left right) n =
      let l := s.expr left n
      let r := s.expr right l.nextId
      ⟨.binary m op l.value r.value, r.nextId, l.visits ++ r.visits⟩ := by
  exact Pass.map₂_apply (s.expr left) (s.expr right) (Expr.binary m op) n

theorem expr_member (m : Mark) (receiver : Expr) (name : String) (n : Nat) :
    s.expr (.member m receiver name) n = ⟨.member m (s.expr receiver n).value name,
      (s.expr receiver n).nextId, (s.expr receiver n).visits⟩ := by
  exact Pass.map_apply (s.expr receiver) (Expr.member m · name) n

theorem expr_call (m : Mark) (callee : Expr) (args : List Expr) (n : Nat) :
    s.expr (.call m callee args) n =
      let c := s.expr callee n
      let a := s.exprs args c.nextId
      ⟨.call m c.value a.value, a.nextId, c.visits ++ a.visits⟩ := by
  exact Pass.map₂_apply (s.expr callee) (s.exprs args) (Expr.call m) n

/-- An element access that is expanded takes one number, and its parts are not walked. -/
theorem expr_of_expand {e : Expr} {site : Site} {elements : List Expr}
    (h : s.judge e = .expand site elements) (n : Nat) :
    s.expr e n = ⟨Expr.construct s.options.container site.ty ⟨n, e.pos⟩ elements, n + 1,
      [.literal site]⟩ := by
  cases e with
  | index m receiver args =>
    rw [expr]
    simp [replace?, h, Pass.note, Pass.construct, Pass.freshId]
  | _ => cases h

/-- An element access that is not expanded is walked like any other node. -/
theorem expr_index {m : Mark} {receiver : Expr} {args : List Expr}
    (h : ¬ (s.judge (.index m receiver args)).Expands) (n : Nat) :
    s.expr (.index m receiver args) n =
      let r := s.expr receiver n
      let a := s.exprs args r.nextId
      ⟨.index m r.value a.value, a.nextId,
        (s.judge (.index m receiver args)).notes m.pos ++ (r.visits ++ a.visits)⟩ := by
  rw [expr]
  cases hj : s.judge (.index m receiver args) with
  | other =>
    simp [replace?, hj, Verdict.notes]
  | access =>
    simp [replace?, hj, Pass.note, Verdict.notes, Expr.pos,
      Expr.mark]
  | leave site =>
    simp [replace?, hj, Pass.note, Verdict.notes]
  | expand site elements => exact absurd ⟨site, elements, hj⟩ h

theorem expr_new (m : Mark) (ty : TypeExpr) (args init : Option (List Expr)) (n : Nat) :
    s.expr (.new m ty args init) n =
      let a := s.part args n
      let i := s.part init a.nextId
      ⟨.new m ty a.value i.value, i.nextId, a.visits ++ i.visits⟩ := by
  exact Pass.map₂_apply (s.part args) (s.part init) (Expr.new m ty) n

theorem exprs_nil (n : Nat) : s.exprs [] n = ⟨[], n, []⟩ := rfl

theorem exprs_cons (e : Expr) (rest : List Expr) (n : Nat) :
    s.exprs (e :: rest) n =
      let f := s.expr e n
      let o := s.exprs rest f.nextId
      ⟨f.value :: o.value, o.nextId, f.visits ++ o.visits⟩ := by
  exact Pass.map₂_apply (s.expr e) (s.exprs rest) List.cons n

theorem part_none (n : Nat) : s.part none n = ⟨none, n, []⟩ := rfl

theorem part_some (es : List Expr) (n : Nat) :
    s.part (some es) n = ⟨some (s.exprs es n).value, (s.exprs es n).nextId,
      (s.exprs es n).visits⟩ := by
  exact Pass.map_apply (s.exprs es) some n

/-! ### Statements -/

theorem init_none (n : Nat) : s.init none n = ⟨none, n, []⟩ := rfl

theorem init_some (e : Expr) (n : Nat) :
    s.init (some e) n = ⟨some (s.expr e n).value, (s.expr e n).nextId, (s.expr e n).visits⟩ := by
  exact Pass.map_apply (s.expr e) some n

theorem stmt_declare (ty : Option TypeExpr) (name : String) (initial : Option Expr) (line n : Nat) :
    s.stmt (.declare ty name initial line) n = ⟨.declare ty name (s.init initial n).value line,
      (s.init initial n).nextId, (s.init initial n).visits⟩ := by
  exact Pass.map_apply (s.init initial) (Stmt.declare ty name · line) n

theorem stmt_assign (target value : Expr) (n : Nat) :
    s.stmt (.assign target value) n =
      let t := s.expr target n
      let v := s.expr value t.nextId
      ⟨.assign t.value v.value, v.nextId, t.visits ++ v.visits⟩ := by
  exact Pass.map₂_apply (s.expr target) (s.expr value) Stmt.assign n

theorem stmt_expr (value : Expr) (n : Nat) :
    s.stmt (.expr value) n = ⟨.expr (s.expr value n).value, (s.expr value n).nextId,
      (s.expr value n).visits⟩ := by
  exact Pass.map_apply (s.expr value) Stmt.expr n

theorem stmt_block (inner : List Stmt) (n : Nat) :
    s.stmt (.block inner) n = ⟨.block (s.stmts inner n).value, (s.stmts inner n).nextId,
      (s.stmts inner n).visits⟩ := by
  exact Pass.map_apply (s.stmts inner) Stmt.block n

theorem stmt_branch (cond : Expr) (thenBranch : Stmt) (elseBranch : Option Stmt) (n : Nat) :
    s.stmt (.branch cond thenBranch elseBranch) n =
      let c := s.expr cond n
      let t := s.stmt thenBranch c.nextId
      let e := s.alternative elseBranch t.nextId
      ⟨.branch c.value t.value e.value, e.nextId, c.visits ++ (t.visits ++ e.visits)⟩ := by
  rw [stmt]
  simp

theorem stmt_foreach (ty : Option TypeExpr) (name : String) (iter : Expr) (body : Stmt) (n : Nat) :
    s.stmt (.foreach ty name iter body) n =
      let i := s.expr iter n
      let b := s.stmt body i.nextId
      ⟨.foreach ty name i.value b.value, b.nextId, i.visits ++ b.visits⟩ := by
  exact Pass.map₂_apply (s.expr iter) (s.stmt body) (Stmt.foreach ty name) n

theorem stmts_nil (n : Nat) : s.stmts [] n = ⟨[], n, []⟩ := rfl

theorem stmts_cons (first : Stmt) (rest : List Stmt) (n : Nat) :
    s.stmts (first :: rest) n =
      let f := s.stmt first n
      let o := s.stmts rest f.nextId
      ⟨f.value :: o.value, o.nextId, f.visits ++ o.visits⟩ := by
  exact Pass.map₂_apply (s.stmt first) (s.stmts rest) List.cons n

theorem alternative_none (n : Nat) : s.alternative none n = ⟨none, n, []⟩ := rfl

theorem alternative_some (other : Stmt) (n : Nat) :
    s.alternative (some other) n = ⟨some (s.stmt other n).value, (s.stmt other n).nextId,
      (s.stmt other n).visits⟩ := by
  exact Pass.map_apply (s.stmt other) some n

end Setting

/-! ### Verdicts

The pass decides from the shape of a node and from a type.  The facts here lead back from
what was decided to the shape and the type that it was decided by.
-/

@[simp] theorem sitesOf_append (a b : List Visit) : sitesOf (a ++ b) = sitesOf a ++ sitesOf b := by
  simp [sitesOf]

/-- The sites that were expanded, in the order in which they were met. -/
def expansions (visits : List Visit) : List Site :=
  (sitesOf visits).filter fun site => site.outcome = .expanded

@[simp] theorem expansions_append (a b : List Visit) :
    expansions (a ++ b) = expansions a ++ expansions b := by
  simp [expansions, sitesOf]

@[simp] theorem expansions_nil : expansions [] = [] := rfl

namespace Setting

variable {s : Setting}

/-- A node without the shape of a literal is not noted as one. -/
theorem judge_of_not_delimited {e : Expr} (h : e.delimited? = none) :
    s.judge e = .other ∨ s.judge e = .access := by
  cases e with
  | index m receiver args =>
    have hargs : Expr.delimitedArgs? args = none := h
    exact Or.inr (by simp [judge, hargs])
  | _ => exact Or.inl rfl

theorem not_expands_of_not_delimited {e : Expr} (h : e.delimited? = none) :
    ¬ (s.judge e).Expands := by
  rcases judge_of_not_delimited (s := s) h with hj | hj <;> simp [hj]

/-- The verdict on a node with the shape of a literal is that on its elements. -/
theorem judge_of_shape {e : Expr} {shape : Delimited} (h : e.delimited? = some shape) :
    s.judge e = s.judgeElements e.pos shape.elements := by
  cases e with
  | index m receiver args =>
    have hargs : Expr.delimitedArgs? args = some shape := h
    simp [judge, hargs, Expr.pos, Expr.mark]
  | _ => cases h

/-- A verdict that speaks of a literal is on a node with the shape of one. -/
theorem exists_shape_of_judge {e : Expr} {v : Verdict} (h : s.judge e = v) (hother : v ≠ .other)
    (haccess : v ≠ .access) :
    ∃ shape, e.delimited? = some shape ∧ s.judgeElements e.pos shape.elements = v := by
  cases hshape : e.delimited? with
  | none =>
    rcases judge_of_not_delimited (s := s) hshape with hj | hj
    · exact absurd (h.symm.trans hj) hother
    · exact absurd (h.symm.trans hj) haccess
  | some shape => exact ⟨shape, rfl, (judge_of_shape hshape).symm.trans h⟩

theorem judgeElements_eq_expand_iff {pos : Pos} {elements elements' : List Expr} {site : Site} :
    s.judgeElements pos elements = .expand site elements' ↔
      s.expands (Expr.elementType s.typeOf elements) = true ∧ elements' = elements ∧
        site = ⟨pos, elements.length, Expr.elementType s.typeOf elements, .expanded⟩ := by
  unfold judgeElements
  by_cases h : s.expands (Expr.elementType s.typeOf elements) = true
  · simp [h, eq_comm, and_comm]
  · simp [h]

theorem judgeElements_eq_leave_iff {pos : Pos} {elements : List Expr} {site : Site} :
    s.judgeElements pos elements = .leave site ↔
      s.expands (Expr.elementType s.typeOf elements) = false ∧
        site = ⟨pos, elements.length, Expr.elementType s.typeOf elements, .abstained⟩ := by
  unfold judgeElements
  by_cases h : s.expands (Expr.elementType s.typeOf elements) = true
  · simp [h]
  · simp [h, eq_comm]

/-- A node to be expanded is an element access with the shape of a literal. -/
theorem judge_eq_expand {e : Expr} {site : Site} {elements : List Expr}
    (h : s.judge e = .expand site elements) : ∃ m receiver args shape,
      e = .index m receiver args ∧ Expr.delimitedArgs? args = some shape ∧
        elements = shape.elements ∧
        site = ⟨m.pos, elements.length, Expr.elementType s.typeOf elements, .expanded⟩ := by
  obtain ⟨shape, hshape, hj⟩ := exists_shape_of_judge h (by simp) (by simp)
  obtain ⟨-, rfl, rfl⟩ := judgeElements_eq_expand_iff.mp hj
  cases e with
  | index m receiver args => exact ⟨m, receiver, args, shape, rfl, hshape, rfl, rfl⟩
  | _ => cases hshape

/-- A literal is expanded only if its type is enough. -/
theorem expands_of_judge {e : Expr} {site : Site} {elements : List Expr}
    (h : s.judge e = .expand site elements) : s.expands site.ty = true := by
  obtain ⟨shape, -, hj⟩ := exists_shape_of_judge h (by simp) (by simp)
  obtain ⟨hexpands, -, rfl⟩ := judgeElements_eq_expand_iff.mp hj
  exact hexpands

/-- A node to be left as it is has the shape of a literal too, and its type is not enough. -/
theorem judge_eq_leave {e : Expr} {site : Site} (h : s.judge e = .leave site) :
    ∃ shape, e.delimited? = some shape ∧ s.expands site.ty = false ∧
      site = ⟨e.pos, shape.elements.length, Expr.elementType s.typeOf shape.elements, .abstained⟩ := by
  obtain ⟨shape, hshape, hj⟩ := exists_shape_of_judge h (by simp) (by simp)
  obtain ⟨hexpands, rfl⟩ := judgeElements_eq_leave_iff.mp hj
  exact ⟨shape, hshape, hexpands, rfl⟩

/-- A node with the shape of a literal is noted, whether or not it is expanded. -/
theorem judge_of_delimited {e : Expr} {shape : Delimited} (h : e.delimited? = some shape) :
    ∃ site, s.judge e = .leave site ∨ s.judge e = .expand site shape.elements := by
  rw [judge_of_shape h, judgeElements]
  split
  · exact ⟨_, Or.inr rfl⟩
  · exact ⟨_, Or.inl rfl⟩

theorem expansions_of_expand {e : Expr} {site : Site} {elements : List Expr}
    (h : s.judge e = .expand site elements) : expansions [.literal site] = [site] := by
  obtain ⟨m, receiver, args, shape, -, -, -, rfl⟩ := judge_eq_expand h
  rfl

/-- A node that is not expanded is not noted as expanded. -/
theorem expansions_notes {e : Expr} (h : ¬ (s.judge e).Expands) (pos : Pos) :
    expansions ((s.judge e).notes pos) = [] := by
  cases hj : s.judge e with
  | other => rfl
  | access => rfl
  | leave site =>
    obtain ⟨shape, -, -, rfl⟩ := judge_eq_leave hj
    rfl
  | expand site elements => exact absurd ⟨site, elements, hj⟩ h

/-! ### Nodes that are kept

What happens at a kept node is the same for every kind of node, once its parts are seen as
one list.  With `Kept` an induction over trees has two cases, an expanded node and a kept
one, instead of one for each kind.
-/

theorem exprs_append (a b : List Expr) : ∀ n, s.exprs (a ++ b) n =
    ⟨(s.exprs a n).value ++ (s.exprs b (s.exprs a n).nextId).value,
      (s.exprs b (s.exprs a n).nextId).nextId,
      (s.exprs a n).visits ++ (s.exprs b (s.exprs a n).nextId).visits⟩ := by
  induction a with
  | nil =>
    intro n
    simp [exprs_nil]
  | cons e rest ih =>
    intro n
    simp [exprs_cons, ih]

theorem exprs_getD_part (part : Option (List Expr)) (n : Nat) :
    s.exprs (part.getD []) n =
      ⟨(s.part part n).value.getD [], (s.part part n).nextId, (s.part part n).visits⟩ := by
  cases part with
  | none => simp [part_none, exprs_nil]
  | some es => simp [part_some]

/-- What a walk does at a node that it keeps: the parts are walked in order, after the node
itself is noted. -/
structure Kept (s : Setting) (e : Expr) (n : Nat) : Prop where
  mark : (s.expr e n).value.mark = e.mark
  children : (s.expr e n).value.children = (s.exprs e.children n).value
  nextId : (s.expr e n).nextId = (s.exprs e.children n).nextId
  visits : (s.expr e n).visits = (s.judge e).notes e.pos ++ (s.exprs e.children n).visits

/-- **A node that is not expanded is kept.** -/
theorem kept {e : Expr} (h : ¬ (s.judge e).Expands) (n : Nat) : s.Kept e n := by
  cases e with
  | missing m => constructor <;> simp [expr_missing, exprs_nil, Expr.children, judge, Verdict.notes]
  | literal m value =>
    constructor <;> simp [expr_literal, exprs_nil, Expr.children, judge, Verdict.notes]
  | ident m name =>
    constructor <;> simp [expr_ident, exprs_nil, Expr.children, judge, Verdict.notes]
  | paren m inner =>
    constructor <;>
      simp [expr_paren, exprs_cons, exprs_nil, Expr.children, Expr.mark, judge, Verdict.notes]
  | unary m op operand =>
    constructor <;>
      simp [expr_unary, exprs_cons, exprs_nil, Expr.children, Expr.mark, judge, Verdict.notes]
  | binary m op left right =>
    constructor <;>
      simp [expr_binary, exprs_cons, exprs_nil, Expr.children, Expr.mark, judge, Verdict.notes]
  | member m receiver name =>
    constructor <;>
      simp [expr_member, exprs_cons, exprs_nil, Expr.children, Expr.mark, judge, Verdict.notes]
  | call m callee args =>
    constructor <;>
      simp [expr_call, exprs_cons, Expr.children, Expr.mark, judge, Verdict.notes]
  | index m receiver args =>
    constructor <;>
      simp [s.expr_index h, exprs_cons, Expr.children, Expr.mark, Expr.pos]
  | new m ty args init =>
    constructor <;>
      simp [expr_new, exprs_append, exprs_getD_part, Expr.children, Expr.mark, judge,
        Verdict.notes]

/-! ### Statements are walked expression by expression

A statement gives the order of its expressions and nothing more.  So what is shown of
walks over lists of expressions holds of statements and programs.
-/

theorem stmts_append (a b : List Stmt) : ∀ n, s.stmts (a ++ b) n =
    ⟨(s.stmts a n).value ++ (s.stmts b (s.stmts a n).nextId).value,
      (s.stmts b (s.stmts a n).nextId).nextId,
      (s.stmts a n).visits ++ (s.stmts b (s.stmts a n).nextId).visits⟩ := by
  induction a with
  | nil =>
    intro n
    simp [stmts_nil]
  | cons first rest ih =>
    intro n
    simp [stmts_cons, ih]

theorem exprs_rootsOfAll_of : ∀ {stmts : List Stmt}, (∀ p ∈ stmts, ∀ n, s.exprs p.roots n =
      ⟨(s.stmt p n).value.roots, (s.stmt p n).nextId, (s.stmt p n).visits⟩) → ∀ n,
    s.exprs (Stmt.rootsOfAll stmts) n = ⟨Stmt.rootsOfAll (s.stmts stmts n).value,
      (s.stmts stmts n).nextId, (s.stmts stmts n).visits⟩ := by
  intro stmts
  induction stmts with
  | nil =>
    intro _ n
    simp [stmts_nil, exprs_nil, Stmt.rootsOfAll]
  | cons first rest ih =>
    intro h n
    have hfirst := h first (by simp) n
    have hrest := ih (fun p hp => h p (by simp [hp]))
    simp [Stmt.rootsOfAll, exprs_append, stmts_cons, hfirst, hrest]

/-- **A walk over a statement is a walk over its expressions, in order.** -/
theorem exprs_roots (st : Stmt) : ∀ n, s.exprs st.roots n =
    ⟨(s.stmt st n).value.roots, (s.stmt st n).nextId, (s.stmt st n).visits⟩ := by
  induction st using Stmt.parts_induction with
  | step st ih =>
    intro n
    cases st with
    | declare ty name initial line =>
      cases initial with
      | none => simp [Stmt.roots, stmt_declare, init_none, exprs_nil]
      | some e => simp [Stmt.roots, stmt_declare, init_some, exprs_cons, exprs_nil]
    | assign target value => simp [Stmt.roots, stmt_assign, exprs_cons, exprs_nil]
    | expr value => simp [Stmt.roots, stmt_expr, exprs_cons, exprs_nil]
    | block stmts =>
      rw [Stmt.roots, exprs_rootsOfAll_of fun p hp => ih p (by simpa [Stmt.parts] using hp)]
      simp [stmt_block, Stmt.roots]
    | branch cond thenBranch elseBranch =>
      have hthen := ih thenBranch (by simp [Stmt.parts])
      cases elseBranch with
      | none => simp [Stmt.roots_branch, stmt_branch, alternative_none, exprs_cons, hthen]
      | some other =>
        have helse := ih other (by simp [Stmt.parts])
        simp [Stmt.roots_branch, stmt_branch, alternative_some, exprs_cons, exprs_append, hthen,
          helse]
    | foreach ty name iter body =>
      have hbody := ih body (by simp [Stmt.parts])
      simp [Stmt.roots, stmt_foreach, exprs_cons, hbody]

theorem exprs_rootsOfAll (stmts : List Stmt) (n : Nat) :
    s.exprs (Stmt.rootsOfAll stmts) n = ⟨Stmt.rootsOfAll (s.stmts stmts n).value,
      (s.stmts stmts n).nextId, (s.stmts stmts n).visits⟩ :=
  exprs_rootsOfAll_of (fun p _ => exprs_roots p) n

/-! ### How the numbers move -/

theorem nextId_exprs_of : ∀ {es : List Expr},
    (∀ e ∈ es, ∀ n, (s.expr e n).nextId = n + (expansions (s.expr e n).visits).length) →
    ∀ n, (s.exprs es n).nextId = n + (expansions (s.exprs es n).visits).length := by
  intro es
  induction es with
  | nil =>
    intro _ n
    simp [exprs_nil]
  | cons e rest ih =>
    intro h n
    have hfirst := h e (by simp) n
    have hrest := ih (fun c hc => h c (by simp [hc])) (s.expr e n).nextId
    simp only [exprs_cons, expansions_append, List.length_append]
    omega

/-- **A walk takes one number for each site that it expands.** -/
theorem nextId_expr (e : Expr) : ∀ n,
    (s.expr e n).nextId = n + (expansions (s.expr e n).visits).length := by
  induction e using Expr.children_induction with
  | step e ih =>
    intro n
    by_cases hexpand : (s.judge e).Expands
    · obtain ⟨site, elements, hj⟩ := hexpand
      simp only [s.expr_of_expand hj, expansions_of_expand hj, List.length_singleton]
    · have hkept := kept hexpand n
      rw [hkept.nextId, hkept.visits, expansions_append, expansions_notes hexpand,
        List.nil_append]
      exact nextId_exprs_of ih n

theorem nextId_exprs (es : List Expr) (n : Nat) :
    (s.exprs es n).nextId = n + (expansions (s.exprs es n).visits).length :=
  nextId_exprs_of (fun e _ => nextId_expr e) n

theorem le_nextId_expr (e : Expr) (n : Nat) : n ≤ (s.expr e n).nextId := by
  rw [nextId_expr]
  omega

theorem le_nextId_exprs (es : List Expr) (n : Nat) : n ≤ (s.exprs es n).nextId := by
  rw [nextId_exprs]
  omega

theorem le_nextId_part (part : Option (List Expr)) (n : Nat) : n ≤ (s.part part n).nextId := by
  have h := le_nextId_exprs (s := s) (part.getD []) n
  rwa [exprs_getD_part] at h

theorem le_nextId_stmt (st : Stmt) (n : Nat) : n ≤ (s.stmt st n).nextId := by
  have h := le_nextId_exprs (s := s) st.roots n
  rwa [exprs_roots] at h

end Setting

end Desugar

/-! ### Programs -/

namespace Program

/-- The setting in which a program is desugared. -/
def setting (p : Program) (options : Options) : Desugar.Setting :=
  ⟨options, (Model.ofProgram p).typeOf⟩

/-- The expressions of the expanded program are the walk over those of the program. -/
theorem exprs_desugar (p : Program) (options : Options) :
    (p.setting options).exprs p.roots p.nextId = ⟨(p.desugar options).program.roots,
      (p.desugar options).program.nextId, (p.desugar options).visits⟩ :=
  Desugar.Setting.exprs_rootsOfAll p.stmts p.nextId

end Program

end ListSugar
