/-
The nodes of an expanded tree, by their numbers.

A walk that starts above all numbers of a tree tells its new nodes from the old ones by
their numbers.  The new ones, in the order in which they stand, are the constructions of
the sites that were expanded, numbered one after the other.  The old ones stand in the
order in which they stood before, each at most once, since the elements of a literal are
taken over and the rest of the literal is dropped.
-/
import Mathlib.Data.List.Forall2
import ListSugar.Proofs.Pass.Rewrites

namespace ListSugar

namespace Desugar

/-- The node is the construction that a site was expanded to, with the number `id`. -/
def Creates (s : Setting) (site : Site) (id : Nat) (n : Expr) : Prop :=
  ∃ elements, site.count = elements.length ∧ site.ty = Expr.elementType s.typeOf elements ∧
    n = Expr.construct s.options.container site.ty ⟨id, site.pos⟩ elements

/-- The nodes are the constructions of the sites, numbered from `id` on. -/
def CreatesAll (s : Setting) : List Site → Nat → List Expr → Prop
  | [], _, ns => ns = []
  | site :: rest, id, ns => ∃ n ns', Creates s site id n ∧
      CreatesAll s rest (id + 1) ns' ∧ ns = n :: ns'

namespace CreatesAll

variable {s : Setting}

theorem append : ∀ {sites sites' : List Site} {id : Nat} {ns ns' : List Expr},
    CreatesAll s sites id ns → CreatesAll s sites' (id + sites.length) ns' →
    CreatesAll s (sites ++ sites') id (ns ++ ns') := by
  intro sites
  induction sites with
  | nil =>
    intro sites' id ns ns' h h'
    obtain rfl : ns = [] := h
    exact h'
  | cons site rest ih =>
    intro sites' id ns ns' h h'
    obtain ⟨n, ms, hn, hms, rfl⟩ := h
    refine ⟨n, ms ++ ns', hn, ih hms ?_, rfl⟩
    rwa [List.length_cons, Nat.add_comm rest.length, ← Nat.add_assoc] at h'

theorem map_id : ∀ {sites : List Site} {id : Nat} {ns : List Expr},
    CreatesAll s sites id ns → ns.map Expr.id = List.range' id sites.length := by
  intro sites
  induction sites with
  | nil =>
    intro id ns h
    obtain rfl : ns = [] := h
    rfl
  | cons site rest ih =>
    intro id ns h
    obtain ⟨n, ms, ⟨elements, -, -, rfl⟩, hms, rfl⟩ := h
    rw [List.map_cons, ih hms, List.length_cons, List.range'_succ]
    cases elements <;> rfl

end CreatesAll

theorem children_construct (container : String) (ty : Ty) (m : Mark) (elements : List Expr) :
    (Expr.construct container ty m elements).children = elements := by
  cases elements <;> rfl

theorem mark_construct (container : String) (ty : Ty) (m : Mark) (elements : List Expr) :
    (Expr.construct container ty m elements).mark = m := by
  cases elements <;> rfl

namespace Setting

variable {s : Setting} {k : Nat}

/-! ### New nodes

The induction follows the walk.  At a node that is expanded the new node comes first, and
its elements, which are old, add nothing.  At a node that is kept the parts hand on their
constructions in the order in which they are walked, and each part begins with the number
at which the one before it stopped.
-/

theorem creates_exprs_of : ∀ {es : List Expr}, (∀ e ∈ es, ∀ {n}, k ≤ n →
      CreatesAll s (expansions (s.expr e n).visits) n
        ((s.expr e n).value.nodes.filter fun x => k ≤ x.id)) → ∀ {n}, k ≤ n →
    CreatesAll s (expansions (s.exprs es n).visits) n
      (((s.exprs es n).value.flatMap Expr.nodes).filter fun x => k ≤ x.id) := by
  intro es
  induction es with
  | nil =>
    intro _ n _
    rw [exprs_nil]
    rfl
  | cons e rest ih =>
    intro h n hn
    have hnext : k ≤ (s.expr e n).nextId := Nat.le_trans hn (le_nextId_expr e n)
    have hfirst := h e (by simp) hn
    have hrest := ih (fun c hc => h c (by simp [hc])) hnext
    rw [nextId_expr] at hrest
    simp only [exprs_cons, expansions_append, List.flatMap_cons, List.filter_append]
    rw [nextId_expr]
    exact hfirst.append hrest

/-- **The new nodes of an expanded tree are the constructions of its expanded sites, in
order.** -/
theorem creates_expr (e : Expr) : (∀ x ∈ e.nodes, x.id < k) → ∀ {n}, k ≤ n →
    CreatesAll s (expansions (s.expr e n).visits) n
      ((s.expr e n).value.nodes.filter fun x => k ≤ x.id) := by
  induction e using Expr.children_induction with
  | step e ih =>
    intro hbelow n hn
    by_cases hexpand : (s.judge e).Expands
    · obtain ⟨site, elements, hj⟩ := hexpand
      simp only [s.expr_of_expand hj, expansions_of_expand hj]
      -- The elements are nodes of the literal, so none of them is new.
      have hold : (elements.flatMap Expr.nodes).filter (fun x => k ≤ x.id) = [] := by
        rw [List.filter_eq_nil_iff]
        intro x hx
        have := hbelow x ((elements_sublist hj).subset hx)
        simpa using this
      rw [Expr.nodes_eq, children_construct, List.filter_cons, if_pos, hold]
      · obtain ⟨m, receiver, args, shape, rfl, -, -, rfl⟩ := judge_eq_expand hj
        exact ⟨_, [], ⟨elements, rfl, rfl, rfl⟩, rfl, rfl⟩
      · rw [Expr.id, mark_construct]
        simpa using hn
    · have hkept := kept hexpand n
      have hid : ¬ k ≤ (s.expr e n).value.id := by
        have := hbelow e (Expr.self_mem_nodes e)
        rw [Expr.id, hkept.mark]
        unfold Expr.id at this
        omega
      rw [hkept.visits, expansions_append, expansions_notes hexpand, List.nil_append,
        Expr.nodes_eq, hkept.children, List.filter_cons, if_neg (by simpa using hid)]
      refine creates_exprs_of (fun c hc => ih c hc fun x hx => hbelow x ?_) hn
      exact Expr.mem_nodes_iff.mpr (Or.inr ⟨c, hc, hx⟩)

theorem creates_exprs {es : List Expr} (h : ∀ e ∈ es, ∀ x ∈ e.nodes, x.id < k) {n : Nat}
    (hn : k ≤ n) : CreatesAll s (expansions (s.exprs es n).visits) n
      (((s.exprs es n).value.flatMap Expr.nodes).filter fun x => k ≤ x.id) :=
  creates_exprs_of (fun e he => creates_expr e (h e he)) hn

/-! ### Old nodes

A walk copies no node: an expanded literal hands on the nodes of its elements, which are
some of its own nodes in their order.  So the old nodes of the result are matched with
nodes of the tree from left to right, and that numbers stay unique needs no induction of
its own.
-/

/-- The node `n'` is the node `n` in its new place: it has the number, the place and the
content of `n`, apart from literals below it that are expanded. -/
def Moved (s : Setting) (k : Nat) (n' n : Expr) : Prop := n'.mark = n.mark ∧ s.Rewrites k n n'

instance (s : Setting) (k : Nat) : Std.Refl (s.Moved k) := ⟨fun n => ⟨rfl, .refl n⟩⟩

theorem RewritesAll.moved_of : ∀ {es es' : List Expr}, s.RewritesAll k es es' →
    (∀ e ∈ es, ∀ {e'}, s.Rewrites k e e' →
      List.SublistForall₂ (s.Moved k) (e'.nodes.filter fun x => x.id < k) e.nodes) →
    List.SublistForall₂ (s.Moved k) ((es'.flatMap Expr.nodes).filter fun x => x.id < k)
      (es.flatMap Expr.nodes) := by
  intro es
  induction es with
  | nil =>
    rintro es' rfl _
    exact .nil
  | cons e rest ih =>
    rintro es' ⟨e', rest', he, hrest, rfl⟩ h
    obtain ⟨ns, hns, hsub⟩ := List.sublistForall₂_iff.mp (h e (by simp) he)
    obtain ⟨ms, hms, hsub'⟩ :=
      List.sublistForall₂_iff.mp (ih hrest fun c hc => h c (by simp [hc]))
    rw [List.flatMap_cons, List.flatMap_cons, List.filter_append, List.sublistForall₂_iff]
    exact ⟨ns ++ ms, List.rel_append hns hms, hsub.append hsub'⟩

/-- **The old nodes of a rewritten tree are nodes of the tree, in order and each at most
once.** -/
theorem Rewrites.moved {e : Expr} : ∀ {e' : Expr}, s.Rewrites k e e' →
    List.SublistForall₂ (s.Moved k) (e'.nodes.filter fun x => x.id < k) e.nodes := by
  induction e using Expr.children_induction with
  | step e ih =>
    intro e' h
    rcases h.replaces_or_children with ⟨site, elements, id, hj, hid, rfl⟩ | ⟨hmark, hchildren⟩
    · -- The elements are taken as they are, and the construction around them is new.
      rw [Expr.nodes_eq, children_construct, List.filter_cons, if_neg]
      · exact (List.filter_sublist.trans (elements_sublist hj)).sublistForall₂
      · rw [Expr.id, mark_construct]
        simpa using hid
    · rw [Expr.nodes_eq e', Expr.nodes_eq e, List.filter_cons]
      split
      · exact .cons ⟨hmark, h⟩ (hchildren.moved_of ih)
      · exact .cons_right (hchildren.moved_of ih)

theorem RewritesAll.moved {es es' : List Expr} (h : s.RewritesAll k es es') :
    List.SublistForall₂ (s.Moved k) ((es'.flatMap Expr.nodes).filter fun x => x.id < k)
      (es.flatMap Expr.nodes) :=
  h.moved_of fun _ _ => Rewrites.moved

theorem exprs_moved (es : List Expr) {n : Nat} (hn : k ≤ n) :
    List.SublistForall₂ (s.Moved k)
      (((s.exprs es n).value.flatMap Expr.nodes).filter fun x => x.id < k)
      (es.flatMap Expr.nodes) :=
  (exprs_rewrites (fun e _ => expr_rewrites e) hn).moved

/-- **Numbers stay unique when literals are expanded.** -/
theorem nodup_exprs {es : List Expr} (hnodup : ((es.flatMap Expr.nodes).map Expr.id).Nodup)
    (h : ∀ e ∈ es, ∀ x ∈ e.nodes, x.id < k) {n : Nat} (hn : k ≤ n) :
    (((s.exprs es n).value.flatMap Expr.nodes).map Expr.id).Nodup := by
  have hold : ((((s.exprs es n).value.flatMap Expr.nodes).filter
      fun x => x.id < k).map Expr.id).Nodup := by
    obtain ⟨ns, hns, hsub⟩ := List.sublistForall₂_iff.mp (exprs_moved (s := s) es hn)
    have hids : ((((s.exprs es n).value.flatMap Expr.nodes).filter
        fun x => x.id < k).map Expr.id) = ns.map Expr.id :=
      List.forall₂_eq_eq_eq ▸ List.forall₂_map_left_iff.mpr
        (List.forall₂_map_right_iff.mpr (hns.imp fun _ _ hmoved => congrArg Mark.id hmoved.1))
    rw [hids]
    exact hnodup.sublist (hsub.map _)
  have hnew : ((((s.exprs es n).value.flatMap Expr.nodes).filter
      fun x => k ≤ x.id).map Expr.id).Nodup := by
    rw [(creates_exprs h hn).map_id]
    exact List.nodup_range'
  have hsplit := (List.filter_append_perm (fun x : Expr => decide (x.id < k))
    ((s.exprs es n).value.flatMap Expr.nodes)).map Expr.id
  refine hsplit.nodup_iff.mp ?_
  rw [List.map_append, List.nodup_append]
  have hnot : ∀ x : Expr, (!decide (x.id < k)) = decide (k ≤ x.id) := by
    intro x
    by_cases hlt : x.id < k
    · simp [hlt]
    · simp [hlt, Nat.le_of_not_lt hlt]
  refine ⟨hold, by simpa only [hnot] using hnew, fun a ha b hb => ?_⟩
  obtain ⟨x, hx, rfl⟩ := List.mem_map.mp ha
  obtain ⟨y, hy, rfl⟩ := List.mem_map.mp hb
  have hltx : x.id < k := by simpa using (List.mem_filter.mp hx).2
  have hley : k ≤ y.id := by simpa using (List.mem_filter.mp hy).2
  omega

end Setting

end Desugar

end ListSugar
