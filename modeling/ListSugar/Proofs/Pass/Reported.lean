/-
The report of a run describes the expanded program.

The sites that were expanded are the new nodes of the program, in the order in which they
stand.  The sites that were left are the literals that the program still has, in the same
order, where nothing below a new node counts: the elements of an expanded literal are taken
as they are and were not offered.

For the second part the walk must not change what it has already judged.  It does not: an
element access is a literal by the comparisons among its arguments and by which of their
operands are missing, and a walk over the arguments changes neither.
-/
import ListSugar.Desugar.Session
import ListSugar.Proofs.Pass.Numbers
import ListSugar.Proofs.Texts

namespace ListSugar

namespace Expr

/-! ### Nodes outside the new ones

A literal inside an element of an expanded one is never offered to the pass, so no report
tells of it.  The nodes that were offered are those which are not new and stand below no
new node.
-/

/-- The nodes of a tree that are neither new nor below a new one, each before its parts.
The new ones are those with a number from `k` on. -/
def nodesOutside (k : Nat) (e : Expr) : List Expr :=
  if k ≤ e.id then [] else e :: e.children.attach.flatMap fun c => nodesOutside k c.val
termination_by sizeOf e
decreasing_by exact sizeOf_lt_of_mem_children c.property

theorem nodesOutside_of_le {k : Nat} {e : Expr} (h : k ≤ e.id) : e.nodesOutside k = [] := by
  rw [nodesOutside, if_pos h]

theorem nodesOutside_of_lt {k : Nat} {e : Expr} (h : e.id < k) :
    e.nodesOutside k = e :: e.children.flatMap (nodesOutside k) := by
  rw [nodesOutside, if_neg (Nat.not_le.mpr h), List.flatMap_subtype fun _ _ => rfl,
    List.unattach_attach]

/-- Only an operator between two operands is a comparison. -/
theorem comparison?_of_rank {e : Expr} (h : 6 ≤ e.rank) (op : BinaryOp) :
    e.comparison? op = none := by
  cases e with
  | binary m found left right =>
    have hlt := found.rank_lt
    have hle : 6 ≤ found.rank := h
    omega
  | _ => rfl

/-- How many elements the literal has that an expression is read from. -/
def literalCount? (e : Expr) : Option Nat := e.literalElements?.map List.length

end Expr

/-- The nodes of a program that are neither new nor below a new one, in order. -/
def Program.nodesOutside (k : Nat) (p : Program) : List Expr :=
  p.roots.flatMap (Expr.nodesOutside k)

namespace Desugar

namespace Setting

variable {s : Setting} {k : Nat}

/-! ### Rewriting keeps the shape of a literal

An access that is left has its arguments rewritten, and it has to be a literal with as
many elements afterwards.  Which arguments are comparisons and which of their operands are
missing decides that.  A construction is neither a comparison nor missing, so it decides
as the access did that it stands for.
-/

/-- The operands of a comparison are rewritten. -/
def RewritesOperands (s : Setting) (k : Nat) (c c' : Comparison) : Prop :=
  s.Rewrites k c.left c'.left ∧ s.Rewrites k c.right c'.right

/-- A comparison stays one, with its operands rewritten, and nothing else becomes one. -/
theorem Rewrites.comparison? {e e' : Expr} (h : s.Rewrites k e e') (op : BinaryOp) :
    (e.comparison? op = none ∧ e'.comparison? op = none) ∨
      ∃ c c', e.comparison? op = some c ∧ e'.comparison? op = some c' ∧ s.RewritesOperands k c c' := by
  by_cases hrank : 6 ≤ e.rank
  · refine Or.inl ⟨Expr.comparison?_of_rank hrank op, Expr.comparison?_of_rank ?_ op⟩
    rwa [h.rank_eq]
  · cases e with
    | binary m found left right =>
      obtain ⟨left', right', hleft, hright, rfl⟩ := h
      by_cases hop : found = op
      · exact Or.inr ⟨⟨m, left, right⟩, ⟨m, left', right'⟩, if_pos hop, if_pos hop, hleft, hright⟩
      · exact Or.inl ⟨if_neg hop, if_neg hop⟩
    | _ => simp [Expr.rank] at hrank

theorem RewritesOperands.length_presentOperands {c c' : Comparison} (h : s.RewritesOperands k c c') :
    (Expr.presentOperands c').length = (Expr.presentOperands c).length := by
  simp only [Expr.presentOperands, List.filter_cons, h.1.isMissing_eq, h.2.isMissing_eq]
  split <;> split <;> rfl

/-- The comparison found among the operands of another one stays the one that is found. -/
theorem RewritesOperands.findSome? {c c' : Comparison} (h : s.RewritesOperands k c c')
    (op : BinaryOp) :
    ([c.left, c.right].findSome? (Expr.comparison? op) = none ∧
        [c'.left, c'.right].findSome? (Expr.comparison? op) = none) ∨
      ∃ d d', [c.left, c.right].findSome? (Expr.comparison? op) = some d ∧
        [c'.left, c'.right].findSome? (Expr.comparison? op) = some d' ∧ s.RewritesOperands k d d' := by
  simp only [List.findSome?_cons, List.findSome?_nil]
  rcases h.1.comparison? op with ⟨hleft, hleft'⟩ | ⟨d, d', hleft, hleft', hd⟩
  · rw [hleft, hleft']
    rcases h.2.comparison? op with ⟨hright, hright'⟩ | ⟨d, d', hright, hright', hd⟩
    · rw [hright, hright']
      exact Or.inl ⟨rfl, rfl⟩
    · rw [hright, hright']
      exact Or.inr ⟨d, d', rfl, rfl, hd⟩
  · rw [hleft, hleft']
    exact Or.inr ⟨d, d', rfl, rfl, hd⟩

/-- A single argument is a literal with as many elements as before, or still none. -/
theorem Rewrites.single? {e e' : Expr} (h : s.Rewrites k e e') :
    e'.single?.map (fun shape => shape.elements.length) =
      e.single?.map fun shape => shape.elements.length := by
  unfold Expr.single?
  rcases h.comparison? .gt with ⟨houter, houter'⟩ | ⟨c, c', houter, houter', hc⟩
  · rw [houter, houter']
  rw [houter, houter']
  rcases hc.findSome? .lt with ⟨hinner, hinner'⟩ | ⟨d, d', hinner, hinner', hd⟩
  · simp only [hinner, hinner']
  simp only [hinner, hinner']
  have hlength := hd.length_presentOperands
  match Expr.presentOperands d, Expr.presentOperands d', hlength with
  | [], [], _ => rfl
  | [_], [_], _ => rfl
  | _ :: _ :: _, _ :: _ :: _, _ => rfl

theorem RewritesAll.concat {last : Expr} : ∀ {middles es' : List Expr},
    s.RewritesAll k (middles ++ [last]) es' → ∃ middles' last',
      es' = middles' ++ [last'] ∧ middles'.length = middles.length ∧ s.Rewrites k last last' := by
  intro middles
  induction middles with
  | nil =>
    rintro es' ⟨last', rest', hlast, hrest, rfl⟩
    obtain rfl : rest' = [] := hrest
    exact ⟨[], last', rfl, rfl, hlast⟩
  | cons e middles ih =>
    rintro es' ⟨e', rest', -, hrest, rfl⟩
    obtain ⟨middles', last', rfl, hlength, hlast⟩ := ih hrest
    exact ⟨e' :: middles', last', rfl, by simp [hlength], hlast⟩

theorem length_elements_range (opening closing : Comparison) (middles : List Expr) :
    (Delimited.range opening middles closing).elements.length = middles.length + 2 := by
  simp [Delimited.elements]

/-- **The arguments of a literal stay those of a literal with as many elements, and no other
arguments become such.** -/
theorem RewritesAll.delimitedArgs? {args args' : List Expr} (h : s.RewritesAll k args args') :
    (Expr.delimitedArgs? args').map (fun shape => shape.elements.length) =
      (Expr.delimitedArgs? args).map fun shape => shape.elements.length := by
  rcases Expr.ends_cases args with rfl | ⟨only, rfl⟩ | ⟨first, middles, last, rfl⟩
  · rw [show args' = [] from h]
  · obtain ⟨only', rest', honly, hrest, rfl⟩ := h
    obtain rfl : rest' = [] := hrest
    exact honly.single?
  · obtain ⟨first', rest', hfirst, hrest, rfl⟩ := h
    obtain ⟨middles', last', rfl, hlength, hlast⟩ := hrest.concat
    rw [Expr.delimitedArgs?_range, Expr.delimitedArgs?_range, Expr.range?, Expr.range?]
    rcases hfirst.comparison? .lt with ⟨hopen, hopen'⟩ | ⟨c, c', hopen, hopen', -⟩
    · rw [hopen, hopen']
    rcases hlast.comparison? .gt with ⟨hclose, hclose'⟩ | ⟨d, d', hclose, hclose', -⟩
    · rw [hopen, hopen', hclose, hclose']
    · rw [hopen, hopen', hclose, hclose']
      simp [length_elements_range, hlength]

theorem Rewrites.delimited?_of_ne_index {e e' : Expr} (h : s.Rewrites k e e')
    (hne : ∀ m receiver args, e ≠ .index m receiver args) : e'.delimited? = none := by
  cases e' with
  | index m' receiver' args' =>
    cases e with
    | index m receiver args => exact absurd rfl (hne m receiver args)
    | _ => simp [Rewrites] at h
  | _ => rfl

/-- **A node that is not replaced is a literal with as many elements as before, or still
none.** -/
theorem Rewrites.literalCount?_eq {e e' : Expr} (h : s.Rewrites k e e')
    (hkept : ¬ s.Replaces k e e') : e'.literalCount? = e.literalCount? := by
  unfold Expr.literalCount? Expr.literalElements?
  rw [Option.map_map, Option.map_map]
  cases e with
  | index m receiver args =>
    rcases h with h | ⟨receiver', args', -, hargs, rfl⟩
    · exact absurd h hkept
    · exact hargs.delimitedArgs?
  | _ =>
    rw [h.delimited?_of_ne_index (by simp)]
    rfl

theorem literalCount?_expr {e : Expr} (h : ¬ (s.judge e).Expands) (n : Nat) :
    (s.expr e n).value.literalCount? = e.literalCount? := by
  refine (expr_rewrites e (Nat.le_refl n)).literalCount?_eq ?_
  rintro ⟨site, elements, -, hj, -⟩
  exact h ⟨site, elements, hj⟩

end Setting

/-! ### Literals that are left

Sites and nodes are matched one by one, in order.  At a kept node the site is matched with
the node as it comes out of the walk, and this is where the shape of the literal has to
have been kept.
-/

/-- The sites that were left as they were, in the order in which they were met. -/
def abstentions (visits : List Visit) : List Site :=
  (sitesOf visits).filter fun site => site.outcome = .abstained

@[simp] theorem abstentions_append (a b : List Visit) :
    abstentions (a ++ b) = abstentions a ++ abstentions b := by
  simp [abstentions]

/-- The node is the literal that was met at the site, and the type of the site did not allow
to expand it. -/
def Leaves (s : Setting) (site : Site) (n : Expr) : Prop :=
  n.pos = site.pos ∧ n.literalCount? = some site.count ∧ s.expands site.ty = false

/-- Where every literal is expanded, none is left. -/
theorem Leaves.eq_nil {s : Setting} (hproceed : s.options.onUnresolved = .proceed)
    {sites : List Site} {ns : List Expr} (h : List.Forall₂ (Leaves s) sites ns) : ns = [] := by
  cases h with
  | nil => rfl
  | cons hleaves _ =>
    obtain ⟨-, -, hexpands⟩ := hleaves
    simp [Setting.expands, hproceed] at hexpands

namespace Setting

variable {s : Setting} {k : Nat}

theorem leaves_notes {e : Expr} (h : ¬ (s.judge e).Expands) (n : Nat) :
    List.Forall₂ (Leaves s) (abstentions ((s.judge e).notes e.pos))
      ([(s.expr e n).value].filter fun x => x.literalCount?.isSome) := by
  have hcount := literalCount?_expr h n
  cases hshape : e.delimited? with
  | none =>
    have hnone : (s.expr e n).value.literalCount? = none := by
      rw [hcount, Expr.literalCount?, Expr.literalElements?, hshape]
      rfl
    rcases judge_of_not_delimited (s := s) hshape with hj | hj
    · simp [hj, Verdict.notes, abstentions, sitesOf, hnone]
    · simp [hj, Verdict.notes, abstentions, sitesOf, Visit.site?, hnone]
  | some shape =>
    obtain ⟨site, hj | hj⟩ := judge_of_delimited (s := s) hshape
    · obtain ⟨shape', hshape', hexpands, hsite⟩ := judge_eq_leave hj
      have hsome : (s.expr e n).value.literalCount? = some site.count := by
        rw [hcount, Expr.literalCount?, Expr.literalElements?, hshape', hsite]
        rfl
      have hnotes : abstentions ((s.judge e).notes e.pos) = [site] := by
        rw [hj, hsite]
        rfl
      rw [hnotes, List.filter_cons, if_pos (by rw [hsome]; rfl)]
      refine .cons ⟨?_, hsome, hexpands⟩ .nil
      rw [Expr.pos, (kept h n).mark, hsite]
      rfl
    · exact absurd ⟨site, _, hj⟩ h

theorem leaves_exprs_of : ∀ {es : List Expr}, (∀ e ∈ es, ∀ {n}, k ≤ n →
      List.Forall₂ (Leaves s) (abstentions (s.expr e n).visits)
        (((s.expr e n).value.nodesOutside k).filter fun x => x.literalCount?.isSome)) →
    ∀ {n}, k ≤ n → List.Forall₂ (Leaves s) (abstentions (s.exprs es n).visits)
      (((s.exprs es n).value.flatMap (Expr.nodesOutside k)).filter
        fun x => x.literalCount?.isSome) := by
  intro es
  induction es with
  | nil =>
    intro _ n _
    rw [exprs_nil]
    exact .nil
  | cons e rest ih =>
    intro h n hn
    have hnext : k ≤ (s.expr e n).nextId := Nat.le_trans hn (le_nextId_expr e n)
    simp only [exprs_cons, abstentions_append, List.flatMap_cons, List.filter_append]
    exact List.rel_append (h e (by simp) hn) (ih (fun c hc => h c (by simp [hc])) hnext)

/-- **The literals of an expanded tree outside its new nodes are the sites that were left, in
order.** -/
theorem leaves_expr (e : Expr) : (∀ x ∈ e.nodes, x.id < k) → ∀ {n}, k ≤ n →
    List.Forall₂ (Leaves s) (abstentions (s.expr e n).visits)
      (((s.expr e n).value.nodesOutside k).filter fun x => x.literalCount?.isSome) := by
  induction e using Expr.children_induction with
  | step e ih =>
    intro hbelow n hn
    by_cases hexpand : (s.judge e).Expands
    · obtain ⟨site, elements, hj⟩ := hexpand
      obtain ⟨m, receiver, args, shape, -, -, -, hsite⟩ := judge_eq_expand hj
      simp only [s.expr_of_expand hj]
      rw [Expr.nodesOutside_of_le, hsite]
      · exact .nil
      · rw [Expr.id, mark_construct]
        exact hn
    · have hkept := kept hexpand n
      have hid : (s.expr e n).value.id < k := by
        rw [Expr.id, hkept.mark]
        exact hbelow e (Expr.self_mem_nodes e)
      rw [hkept.visits, Expr.nodesOutside_of_lt hid, hkept.children, abstentions_append,
        ← List.singleton_append, List.filter_append]
      refine List.rel_append (leaves_notes hexpand n) (leaves_exprs_of (fun c hc => ?_) hn)
      exact ih c hc fun x hx => hbelow x (Expr.mem_nodes_iff.mpr (Or.inr ⟨c, hc, hx⟩))

theorem leaves_exprs {es : List Expr} (h : ∀ e ∈ es, ∀ x ∈ e.nodes, x.id < k) {n : Nat}
    (hn : k ≤ n) : List.Forall₂ (Leaves s) (abstentions (s.exprs es n).visits)
      (((s.exprs es n).value.flatMap (Expr.nodesOutside k)).filter
        fun x => x.literalCount?.isSome) :=
  leaves_exprs_of (fun e he => leaves_expr e (h e he)) hn

end Setting

/-! ### Constructions -/

/-- The node is the construction that the site describes: it stands where the literal stood,
spells the type of the site, and has as many elements as the site counts, or empty arguments
if there are none. -/
def Describes (container : String) (site : Site) (n : Expr) : Prop :=
  n.pos = site.pos ∧ ∃ m args init,
    n = .new m (.named container [site.ty.toTypeExpr]) args init ∧
      ((site.count = 0 ∧ args = some [] ∧ init = none) ∨
        (site.count ≠ 0 ∧ args = none ∧
          ∃ elements, init = some elements ∧ elements.length = site.count))

theorem Creates.describes {s : Setting} {site : Site} {id : Nat} {n : Expr}
    (h : Creates s site id n) : Describes s.options.container site n := by
  obtain ⟨elements, hcount, hty, rfl⟩ := h
  refine ⟨by rw [Expr.pos, mark_construct], ⟨id, site.pos⟩, ?_⟩
  cases elements with
  | nil =>
    refine ⟨some [], none, ?_, Or.inl ⟨hcount, rfl, rfl⟩⟩
    rw [hty]
    rfl
  | cons first rest =>
    refine ⟨none, some (first :: rest), rfl, Or.inr ⟨?_, rfl, _, rfl, hcount.symm⟩⟩
    rw [hcount]
    simp

theorem CreatesAll.describes {s : Setting} : ∀ {sites : List Site} {id : Nat} {ns : List Expr},
    CreatesAll s sites id ns → List.Forall₂ (Describes s.options.container) sites ns := by
  intro sites
  induction sites with
  | nil =>
    intro id ns h
    rw [show ns = [] from h]
    exact .nil
  | cons site rest ih =>
    rintro id ns ⟨n, ns', hn, hrest, rfl⟩
    exact .cons hn.describes (ih hrest)

/-! ### Programs -/

/-- **The report of a run describes the program that it gives.**  The expanded sites are its
new nodes, in order, and the sites that were left are the literals among its nodes outside
the new ones, in order.  A node that is not expanded is a literal after its parts are walked
just when it was one before, so if every literal is to be expanded, none is left outside the
new nodes. -/
theorem report_describes_program (setting : Setting) (start : Nat) {p : Program}
    (hbelow : ∀ n ∈ p.nodes, n.id < p.nextId) :
    ∃ p' report session, (Session.start setting start).program p = ((p', report), session) ∧
      List.Forall₂ (Describes setting.options.container)
        (report.sites.filter fun site => site.outcome = .expanded)
        (p'.nodes.filter fun n => p.nextId ≤ n.id) ∧
      List.Forall₂ (Leaves setting)
        (report.sites.filter fun site => site.outcome = .abstained)
        ((p'.nodesOutside p.nextId).filter fun n => n.literalCount?.isSome) ∧
      (∀ e n, (∀ site elements, setting.judge e ≠ .expand site elements) →
        (setting.expr e n).value.literalCount? = e.literalCount?) ∧
      (setting.options.onUnresolved = .proceed →
        ∀ n ∈ p'.nodesOutside p.nextId, n.literalCount? = none) := by
  have hroots : ∀ e ∈ p.roots, ∀ x ∈ e.nodes, x.id < p.nextId := by
    intro e he x hx
    exact hbelow x (Program.mem_nodes_of_mem_roots he hx)
  have hstart : p.nextId ≤ max start p.nextId := Nat.le_max_right _ _
  have hcreates := (Setting.creates_exprs (s := setting) hroots hstart).describes
  have hleaves := Setting.leaves_exprs (s := setting) hroots hstart
  have hwalk := Setting.exprs_rootsOfAll (s := setting) p.stmts (max start p.nextId)
  rw [Program.roots, hwalk] at hcreates hleaves
  refine ⟨⟨_, _⟩, ⟨_⟩, _, rfl, ?_, hleaves, ?_, ?_⟩
  · rw [Program.nodes_eq_flatMap]
    exact hcreates
  · intro e n hkept
    refine Setting.literalCount?_expr ?_ n
    rintro ⟨site, elements, hj⟩
    exact hkept site elements hj
  · intro hproceed n hn
    have hnone := List.filter_eq_nil_iff.mp (Leaves.eq_nil hproceed hleaves) n hn
    simpa using hnone

/-- One literal is expanded and one is left: the first is the new node of the result, and the
second is still among the old ones. -/
theorem report_describes_program_both : ∃ (p p' : Program) (report : Report) (session : Session),
    Program.ofText "x = [<1>]; y = [<z, 2>];" = .ok p ∧
      (Session.start (p.setting {}) 0).program p = ((p', report), session) ∧
      report.sites.map (fun site => (site.outcome, site.count)) =
        [(.expanded, 1), (.abstained, 2)] ∧
      (p'.nodes.filter fun n => p.nextId ≤ n.id).length = 1 ∧
      ((p'.nodesOutside p.nextId).filter fun n => n.literalCount?.isSome).length = 1 := by
  have hrun : (Program.ofText "x = [<1>]; y = [<z, 2>];").map (fun p =>
      ((Session.start (p.setting {}) 0).program p).1.2.sites.map
        fun site => (site.outcome, site.count)) = .ok [(.expanded, 1), (.abstained, 2)] := by
    decide +kernel
  obtain ⟨p, hp, hrun⟩ := map_eq_ok_iff.mp hrun
  obtain ⟨p', report, session, hprogram, hcreated, hleft, -⟩ :=
    report_describes_program (p.setting {}) 0 (Program.isRead_of_ofText hp).id_lt
  have hsites : report.sites.map (fun site => (site.outcome, site.count)) =
      [(.expanded, 1), (.abstained, 2)] := by
    rwa [hprogram] at hrun
  obtain ⟨a, b, hab, ha, hb⟩ : ∃ a b, report.sites = [a, b] ∧ a.outcome = .expanded ∧
      b.outcome = .abstained := by
    obtain ⟨a, rest, hrest, ha, htail⟩ := List.map_eq_cons_iff.mp hsites
    obtain ⟨b, hb, hbeq⟩ := List.map_eq_singleton_iff.mp htail
    exact ⟨a, b, by rw [hrest, hb], congrArg Prod.fst ha, congrArg Prod.fst hbeq⟩
  refine ⟨p, p', report, session, hp, hprogram, hsites, ?_, ?_⟩
  · rw [← hcreated.length_eq, hab]
    simp [ha, hb]
  · rw [← hleft.length_eq, hab]
    simp [ha, hb]

end Desugar

end ListSugar
