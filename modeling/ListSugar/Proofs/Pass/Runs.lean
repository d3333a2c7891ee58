/-
Runs of a session.

A session is asked for one thing after another: to look at a node, to desugar an
expression or a statement, or to desugar a program and hand over its report.  In between
it keeps a number and a report, and nothing of either reaches what it does with the next
tree: the verdicts come from the tree alone, so a walk meets the same literals from
whatever number it starts, and only the numbers of the new nodes tell two walks apart.

`Expansion` gives the result of a walk with those numbers named, so that two results that
differ in them can be compared.  One turn of a session is then told by the first number it
takes, and a run by adding up its turns: numbers go up, and every site that a turn records
is in the report that is handed over next, or in the one that is left.
-/
import Mathlib.Data.List.Forall2
import ListSugar.Proofs.Pass.Sessions

namespace ListSugar

namespace Desugar

namespace Setting

/-! ### Expanded trees with their new numbers

`Rewrites` forgets the new numbers and lets any literal stay.  Here the numbers are listed
from left to right, and every literal that the setting expands is expanded, so that two
results for one tree differ in these numbers at most.
-/

mutual

/-- The tree `e'` is `e` with its list literals expanded, where `ids` are the numbers of
the new nodes, left to right. -/
inductive Expansion (s : Setting) : Expr → List Nat → Expr → Prop
  | missing (m : Mark) : Expansion s (.missing m) [] (.missing m)
  | literal (m : Mark) (value : Literal) : Expansion s (.literal m value) [] (.literal m value)
  | ident (m : Mark) (name : String) : Expansion s (.ident m name) [] (.ident m name)
  | paren (m : Mark) {inner inner' : Expr} {ids : List Nat} (h : Expansion s inner ids inner') :
    Expansion s (.paren m inner) ids (.paren m inner')
  | unary (m : Mark) (op : UnaryOp) {operand operand' : Expr} {ids : List Nat}
    (h : Expansion s operand ids operand') :
    Expansion s (.unary m op operand) ids (.unary m op operand')
  | binary (m : Mark) (op : BinaryOp) {left left' right right' : Expr} {ids ids' : List Nat}
    (hleft : Expansion s left ids left') (hright : Expansion s right ids' right') :
    Expansion s (.binary m op left right) (ids ++ ids') (.binary m op left' right')
  | member (m : Mark) (name : String) {receiver receiver' : Expr} {ids : List Nat}
    (h : Expansion s receiver ids receiver') :
    Expansion s (.member m receiver name) ids (.member m receiver' name)
  | call (m : Mark) {callee callee' : Expr} {args args' : List Expr} {ids ids' : List Nat}
    (hcallee : Expansion s callee ids callee') (hargs : ExpansionAll s args ids' args') :
    Expansion s (.call m callee args) (ids ++ ids') (.call m callee' args')
  /-- An element access that is not expanded. -/
  | index (m : Mark) {receiver receiver' : Expr} {args args' : List Expr} {ids ids' : List Nat}
    (hkept : ¬ (s.judge (.index m receiver args)).Expands)
    (hreceiver : Expansion s receiver ids receiver') (hargs : ExpansionAll s args ids' args') :
    Expansion s (.index m receiver args) (ids ++ ids') (.index m receiver' args')
  /-- A literal that is expanded, with its elements as they are. -/
  | expand {e : Expr} {site : Site} {elements : List Expr}
    (h : s.judge e = .expand site elements) (id : Nat) :
    Expansion s e [id] (Expr.construct s.options.container site.ty ⟨id, e.pos⟩ elements)
  | new (m : Mark) (ty : TypeExpr) {args args' init init' : Option (List Expr)}
    {ids ids' : List Nat} (hargs : ExpansionPart s args ids args')
    (hinit : ExpansionPart s init ids' init') :
    Expansion s (.new m ty args init) (ids ++ ids') (.new m ty args' init')

/-- The trees are expanded one by one. -/
inductive ExpansionAll (s : Setting) : List Expr → List Nat → List Expr → Prop
  | nil : ExpansionAll s [] [] []
  | cons {e e' : Expr} {rest rest' : List Expr} {ids ids' : List Nat}
    (h : Expansion s e ids e') (hrest : ExpansionAll s rest ids' rest') :
    ExpansionAll s (e :: rest) (ids ++ ids') (e' :: rest')

/-- One part of a construction is expanded. -/
inductive ExpansionPart (s : Setting) :
    Option (List Expr) → List Nat → Option (List Expr) → Prop
  | none : ExpansionPart s none [] none
  | some {es es' : List Expr} {ids : List Nat} (h : ExpansionAll s es ids es') :
    ExpansionPart s (some es) ids (some es')

end

variable {s : Setting}

/-! ### A walk from any number

The verdict on a node does not ask for a number.  So what a walk notes is settled by the
tree, and with it how many numbers the walk takes; those of the parts of a node are pieces
of one range.
-/

theorem visits_exprs_of : ∀ {es : List Expr},
    (∀ e ∈ es, ∀ n m, (s.expr e n).visits = (s.expr e m).visits) →
    ∀ n m, (s.exprs es n).visits = (s.exprs es m).visits := by
  intro es
  induction es with
  | nil =>
    intro _ n m
    rfl
  | cons e rest ih =>
    intro h n m
    have hrest := ih fun c hc => h c (by simp [hc])
    simp only [exprs_cons]
    rw [h e (by simp) n m, hrest _ (s.expr e m).nextId]

/-- **What a walk notes does not depend on the number it starts with.** -/
theorem visits_expr (e : Expr) : ∀ n m, (s.expr e n).visits = (s.expr e m).visits := by
  induction e using Expr.children_induction with
  | step e ih =>
    intro n m
    by_cases hexpand : (s.judge e).Expands
    · obtain ⟨site, elements, hj⟩ := hexpand
      rw [s.expr_of_expand hj, s.expr_of_expand hj]
    · rw [(kept hexpand n).visits, (kept hexpand m).visits, visits_exprs_of ih n m]

theorem visits_exprs (es : List Expr) (n m : Nat) :
    (s.exprs es n).visits = (s.exprs es m).visits :=
  visits_exprs_of (fun e _ => visits_expr e) n m

/-- The numbers that a walk from `n` takes, if it notes `visits`. -/
def taken (n : Nat) (visits : List Visit) : List Nat := List.range' n (expansions visits).length

@[simp] theorem taken_nil (n : Nat) : taken n [] = [] := rfl

theorem taken_append (n : Nat) (a b : List Visit) :
    taken n (a ++ b) = taken n a ++ taken (n + (expansions a).length) b := by
  unfold taken
  rw [expansions_append, List.length_append, List.range'_append_1]

theorem mem_taken {n id : Nat} {visits : List Visit} :
    id ∈ taken n visits ↔ n ≤ id ∧ id < n + (expansions visits).length :=
  List.mem_range'_1

theorem expansionAll_exprs_of : ∀ {es : List Expr}, (∀ e ∈ es, ∀ n,
      s.Expansion e (taken n (s.expr e n).visits) (s.expr e n).value) → ∀ n,
    s.ExpansionAll es (taken n (s.exprs es n).visits) (s.exprs es n).value := by
  intro es
  induction es with
  | nil =>
    intro _ n
    exact .nil
  | cons e rest ih =>
    intro h n
    have hrest := ih (fun c hc => h c (by simp [hc])) (s.expr e n).nextId
    simp only [exprs_cons, taken_append]
    rw [← nextId_expr]
    exact .cons (h e (by simp) n) hrest

theorem expansionPart_of {part : Option (List Expr)} (h : ∀ e ∈ part.getD [], ∀ n,
      s.Expansion e (taken n (s.expr e n).visits) (s.expr e n).value) (n : Nat) :
    s.ExpansionPart part (taken n (s.part part n).visits) (s.part part n).value := by
  cases part with
  | none => exact .none
  | some es =>
    rw [part_some]
    exact .some (expansionAll_exprs_of h n)

/-- The number after a walk over one part of a construction. -/
theorem nextId_part (part : Option (List Expr)) (n : Nat) :
    (s.part part n).nextId = n + (expansions (s.part part n).visits).length := by
  have h := nextId_exprs (s := s) (part.getD []) n
  rwa [exprs_getD_part] at h

/-- **A walk expands the literals of a tree and numbers the new nodes one after the
other.** -/
theorem expansion_expr (e : Expr) : ∀ n,
    s.Expansion e (taken n (s.expr e n).visits) (s.expr e n).value := by
  induction e using Expr.children_induction with
  | step e ih =>
    intro n
    cases e with
    | missing m => exact .missing m
    | literal m value => exact .literal m value
    | ident m name => exact .ident m name
    | paren m inner =>
      rw [expr_paren]
      exact .paren m (ih inner (by simp [Expr.children]) n)
    | unary m op operand =>
      rw [expr_unary]
      exact .unary m op (ih operand (by simp [Expr.children]) n)
    | binary m op left right =>
      simp only [expr_binary, taken_append]
      rw [← nextId_expr]
      exact .binary m op (ih left (by simp [Expr.children]) n)
        (ih right (by simp [Expr.children]) _)
    | member m receiver name =>
      rw [expr_member]
      exact .member m name (ih receiver (by simp [Expr.children]) n)
    | call m callee args =>
      simp only [expr_call, taken_append]
      rw [← nextId_expr]
      exact .call m (ih callee (by simp [Expr.children]) n)
        (expansionAll_exprs_of (fun c hc => ih c (by simp [Expr.children, hc])) _)
    | index m receiver args =>
      by_cases hexpand : (s.judge (.index m receiver args)).Expands
      · obtain ⟨site, elements, hj⟩ := hexpand
        rw [s.expr_of_expand hj, taken, expansions_of_expand hj]
        exact .expand hj n
      · -- The node itself is noted first, and takes no number.
        simp only [s.expr_index hexpand, taken_append, expansions_notes hexpand]
        have hnone : taken n ((s.judge (.index m receiver args)).notes m.pos) = [] := by
          rw [taken, expansions_notes hexpand]
          rfl
        rw [hnone, List.nil_append, List.length_nil, Nat.add_zero, ← nextId_expr]
        exact .index m hexpand (ih receiver (by simp [Expr.children]) n)
          (expansionAll_exprs_of (fun c hc => ih c (by simp [Expr.children, hc])) _)
    | new m ty args init =>
      simp only [expr_new, taken_append]
      rw [← nextId_part]
      exact .new m ty (expansionPart_of (fun c hc => ih c (by simp [Expr.children, hc])) n)
        (expansionPart_of (fun c hc => ih c (by simp [Expr.children, hc])) _)

theorem expansionAll_exprs (es : List Expr) (n : Nat) :
    s.ExpansionAll es (taken n (s.exprs es n).visits) (s.exprs es n).value :=
  expansionAll_exprs_of (fun e _ => expansion_expr e) n

/-! ### One node -/

theorem replace?_of_expand {e : Expr} {site : Site} {elements : List Expr}
    (h : s.judge e = .expand site elements) (n : Nat) :
    s.replace? e n = ⟨some (Expr.construct s.options.container site.ty ⟨n, e.pos⟩ elements),
      n + 1, [.literal site]⟩ := by
  simp [replace?, h, Pass.note, Pass.construct, Pass.freshId]

theorem replace?_of_not_expands {e : Expr} (h : ¬ (s.judge e).Expands) (n : Nat) :
    s.replace? e n = ⟨none, n, (s.judge e).notes e.pos⟩ := by
  cases hj : s.judge e with
  | expand site elements => exact absurd ⟨site, elements, hj⟩ h
  | _ => simp [replace?, hj, Pass.note, Verdict.notes]

end Setting

namespace Session

/-! ### One turn

Each of the four requests is one walk, from the number that the session has, or for a
program from above its own numbers too.  That first number tells all that a turn depends
on.  The sites that it records are those of its walk, which any session with the same
setting would record.
-/

/-- What a session can be asked for. -/
inductive Step where
  | node (e : Expr)
  | expr (e : Expr)
  | stmt (st : Stmt)
  | program (p : Program)

/-- What it answers. -/
inductive Reply where
  /-- The replacement of the node, if there is one. -/
  | node (e? : Option Expr)
  | expr (e : Expr)
  | stmt (st : Stmt)
  | program (p : Program) (report : Report)

/-- The sites that are handed over with an answer. -/
def Reply.handed : Reply → List Site
  | .program _ report => report.sites
  | _ => []

/-- The answer to one step, and the session after it. -/
def perform (session : Session) : Step → Reply × Session
  | .node e => (.node (session.node e).1, (session.node e).2)
  | .expr e => (.expr (session.expr e).1, (session.expr e).2)
  | .stmt st => (.stmt (session.stmt st).1, (session.stmt st).2)
  | .program p =>
    (.program (session.program p).1.1 (session.program p).1.2, (session.program p).2)

/-- The answer is right for the step, where `ids` are the numbers of the new nodes.  The
next number of a program is left open. -/
def Answers (s : Setting) (ids : List Nat) : Step → Reply → Prop
  | .node e, .node none => ¬ (s.judge e).Expands ∧ ids = []
  | .node e, .node (some e') => (s.judge e).Expands ∧ s.Expansion e ids e'
  | .expr e, .expr e' => s.Expansion e ids e'
  | .stmt st, .stmt st' =>
    (∃ k, st.Related (s.Rewrites k) st') ∧ s.ExpansionAll st.roots ids st'.roots
  | .program p, .program p' _ =>
    (∃ k, Stmt.RelatedAll (s.Rewrites k) p.stmts p'.stmts) ∧ s.ExpansionAll p.roots ids p'.roots
  | _, _ => False

/-- The turn of a session that is asked for `step` answers it with new nodes numbered
`ids`, and records `sites`: what it hands over and keeps is what it had, and these. -/
structure Tells (session : Session) (step : Step) (ids : List Nat) (sites : List Site) : Prop where
  answers : Answers session.setting ids step (session.perform step).1
  records : (session.perform step).1.handed ++ (session.perform step).2.report.sites =
    session.report.sites ++ sites

/-- What is noted at a step, from whatever number. -/
def visited (s : Setting) : Step → List Visit
  | .node e => (s.replace? e 0).visits
  | .expr e => (s.expr e 0).visits
  | .stmt st => (s.exprs st.roots 0).visits
  | .program p => (s.exprs p.roots 0).visits

/-- What a turn is told by: the number from which the new nodes are numbered. -/
structure TurnFrom (session : Session) (step : Step) (first : Nat) : Prop where
  le : session.nextId ≤ first
  setting : (session.perform step).2.setting = session.setting
  nextId : (session.perform step).2.nextId =
    first + (expansions (visited session.setting step)).length
  tells : session.Tells step (Setting.taken first (visited session.setting step))
    (sitesOf (visited session.setting step))

theorem turnFrom_node (session : Session) (e : Expr) :
    session.TurnFrom (.node e) session.nextId := by
  by_cases hexpand : (session.setting.judge e).Expands
  · obtain ⟨site, elements, hj⟩ := hexpand
    have hreplace := Setting.replace?_of_expand hj
    have hone := Setting.expansions_of_expand hj
    refine ⟨Nat.le_refl _, rfl, ?_, ?_, ?_⟩
    · simp [perform, node, run, visited, hreplace, hone]
    · simp only [visited, hreplace, Setting.taken, hone, perform, node, run, Answers]
      exact ⟨⟨site, elements, hj⟩, .expand hj session.nextId⟩
    · simp [perform, node, run, visited, hreplace, Reply.handed]
  · have hreplace := Setting.replace?_of_not_expands hexpand
    have hnone := Setting.expansions_notes hexpand e.pos
    refine ⟨Nat.le_refl _, rfl, ?_, ?_, ?_⟩
    · simp [perform, node, run, visited, hreplace, hnone]
    · simp only [visited, hreplace, Setting.taken, hnone, perform, node, run, Answers]
      exact ⟨hexpand, rfl⟩
    · simp [perform, node, run, visited, hreplace, Reply.handed]

theorem turnFrom_expr (session : Session) (e : Expr) :
    session.TurnFrom (.expr e) session.nextId := by
  have hvisits := Setting.visits_expr (s := session.setting) e 0 session.nextId
  refine ⟨Nat.le_refl _, rfl, ?_, ?_, ?_⟩
  · rw [visited, hvisits]
    exact Setting.nextId_expr e session.nextId
  · rw [visited, hvisits]
    exact Setting.expansion_expr e session.nextId
  · rw [visited, hvisits]
    rfl

theorem turnFrom_stmt (session : Session) (st : Stmt) :
    session.TurnFrom (.stmt st) session.nextId := by
  have hvisits := Setting.visits_exprs (s := session.setting) st.roots 0 session.nextId
  have hroots := Setting.exprs_roots (s := session.setting) st session.nextId
  have hnext := Setting.nextId_exprs (s := session.setting) st.roots session.nextId
  have hall := Setting.expansionAll_exprs (s := session.setting) st.roots session.nextId
  rw [hroots] at hvisits hnext hall
  refine ⟨Nat.le_refl _, rfl, ?_, ?_, ?_⟩
  · rw [visited, hvisits]
    exact hnext
  · rw [visited, hvisits]
    exact ⟨⟨session.nextId, Setting.stmt_related st (Nat.le_refl _)⟩, hall⟩
  · rw [visited, hvisits]
    rfl

/-- A program is numbered above its own numbers too. -/
theorem turnFrom_program (session : Session) (p : Program) :
    session.TurnFrom (.program p) (max session.nextId p.nextId) := by
  obtain ⟨p', visits, hprogram, hwalk, hrelated⟩ := exprs_program session p
  have hvisits := Setting.visits_exprs (s := session.setting) p.roots 0
    (max session.nextId p.nextId)
  have hnext := Setting.nextId_exprs (s := session.setting) p.roots (max session.nextId p.nextId)
  have hall := Setting.expansionAll_exprs (s := session.setting) p.roots
    (max session.nextId p.nextId)
  rw [hwalk] at hvisits hnext hall
  refine ⟨Nat.le_max_left _ _, rfl, ?_, ?_, ?_⟩
  · rw [visited, hvisits, perform, hprogram]
    exact hnext
  · rw [visited, hvisits, perform, hprogram]
    exact ⟨⟨_, hrelated⟩, hall⟩
  · rw [visited, hvisits, perform, hprogram]
    simp [Reply.handed, Report.empty]

/-- **A turn numbers its new nodes one after the other, and what it answers and records
depends on nothing else.** -/
theorem exists_turnFrom (session : Session) (step : Step) :
    ∃ first, session.TurnFrom step first := by
  cases step with
  | node e => exact ⟨_, session.turnFrom_node e⟩
  | expr e => exact ⟨_, session.turnFrom_expr e⟩
  | stmt st => exact ⟨_, session.turnFrom_stmt st⟩
  | program p => exact ⟨_, session.turnFrom_program p⟩

/-! ### Whole runs

A run is cut into its turns, and each of them is compared with the turn of a session that
starts afresh.  From one turn to the next there remain a number, which only grows, and a
report, which is only added to until it is handed over.  So adding up the turns gives
numbers that go up, and reports that hold every site that a step meets, once and in order.
-/

/-- A session before a turn, and what it is asked for. -/
structure Turn where
  before : Session
  step : Step

/-- The answer that is given at a turn. -/
def Turn.reply (t : Turn) : Reply := (t.before.perform t.step).1

/-- The turns of a session that is asked for several steps. -/
def turns (session : Session) : List Step → List Turn
  | [] => []
  | step :: rest => ⟨session, step⟩ :: turns (session.perform step).2 rest

/-- The session after several steps. -/
def performAll (session : Session) : List Step → Session
  | [] => session
  | step :: rest => performAll (session.perform step).2 rest

/-- What a turn gives apart from its place in the run: the numbers of its new nodes and the
sites that it records.  A session that starts afresh gives the same answer, up to those
numbers, and records the same sites. -/
def Turn.Alone (t : Turn) (ids : List Nat) (sites : List Site) : Prop :=
  t.before.Tells t.step ids sites ∧ ∀ n, ∃ ids', ids'.length = ids.length ∧
    (start t.before.setting n).Tells t.step ids' sites

theorem alone_of_turnFrom {session : Session} {step : Step} {first : Nat}
    (h : session.TurnFrom step first) :
    Turn.Alone ⟨session, step⟩ (Setting.taken first (visited session.setting step))
      (sitesOf (visited session.setting step)) := by
  refine ⟨h.tells, fun n => ?_⟩
  obtain ⟨first', h'⟩ := (start session.setting n).exists_turnFrom step
  refine ⟨_, ?_, h'.tells⟩
  simp [Setting.taken, start]

theorem exists_turns (s : Setting) (steps : List Step) : ∀ session : Session,
    session.setting = s → ∃ told : List (List Nat),
      List.Forall₂ (fun turn ids => turn.before.setting = s ∧
        turn.Alone ids (sitesOf (visited s turn.step))) (session.turns steps) told ∧
      told.flatten.Pairwise (· < ·) ∧
      (∀ id ∈ told.flatten, session.nextId ≤ id) ∧
      (session.turns steps).flatMap (fun turn => turn.reply.handed) ++
          (session.performAll steps).report.sites =
        session.report.sites ++ steps.flatMap fun step => sitesOf (visited s step) := by
  induction steps with
  | nil =>
    intro session _
    exact ⟨[], .nil, .nil, by simp, by simp [turns, performAll]⟩
  | cons step rest ih =>
    rintro session rfl
    obtain ⟨first, hturn⟩ := session.exists_turnFrom step
    obtain ⟨told, hall, hpairwise, habove, hsites⟩ := ih (session.perform step).2 hturn.setting
    have hnext := hturn.nextId
    -- The numbers of this turn end where those of the next one may begin.
    refine ⟨Setting.taken first (visited session.setting step) :: told,
      .cons ⟨rfl, alone_of_turnFrom hturn⟩ hall, ?_, ?_, ?_⟩
    · rw [List.flatten_cons, List.pairwise_append]
      refine ⟨List.pairwise_lt_range', hpairwise, fun id hid id' hid' => ?_⟩
      have hlt := (Setting.mem_taken.mp hid).2
      have hle := habove id' hid'
      omega
    · intro id hid
      rw [List.flatten_cons, List.mem_append] at hid
      have hle := hturn.le
      rcases hid with hid | hid
      · exact Nat.le_trans hle (Setting.mem_taken.mp hid).1
      · have hge := habove id hid
        omega
    · -- What this turn hands over and keeps is what was there and the sites that it met.
      have hrecords := hturn.tells.records
      simp only [turns, performAll, List.flatMap_cons]
      rw [List.append_assoc, hsites, ← List.append_assoc, ← List.append_assoc]
      exact congrArg (· ++ rest.flatMap fun step => sitesOf (visited session.setting step)) hrecords

/-- **A session keeps nothing in mind, and its reports tell everything once.**  Whatever it
is asked for, in any order, each turn answers as a session that starts afresh with the same
setting, up to the numbers of new nodes, and both record the sites of the literals that a walk
over what was asked for meets.  The numbers of the new nodes go up over the whole run.  The
reports that were handed over, and the one that is left, are the sites met at all steps, in
order. -/
theorem turns_tell (s : Setting) (n : Nat) (steps : List Step) :
    ∃ told : List (List Nat),
      List.Forall₂ (fun turn ids => turn.before.setting = s ∧
        turn.Alone ids (sitesOf (visited s turn.step))) ((start s n).turns steps) told ∧
      told.flatten.Pairwise (· < ·) ∧
      ((start s n).turns steps).flatMap (fun turn => turn.reply.handed) ++
          ((start s n).performAll steps).report.sites =
        steps.flatMap fun step => sitesOf (visited s step) := by
  obtain ⟨told, hall, hpairwise, -, hsites⟩ := exists_turns s steps (start s n) rfl
  exact ⟨told, hall, hpairwise, hsites⟩

end Session

end Desugar

end ListSugar
