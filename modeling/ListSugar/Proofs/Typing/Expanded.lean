/-
The types of a program after its literals are expanded.

Three things are said about the types of a program that was read and of the program that
it is expanded to.  What is replaced had no type.  What is kept has the type that it had,
if it had one.  And where the container is the list, every construction has the list type
of the elements that its site was reported with: the model only has types that are read
back as themselves from how they are spelled.
-/
import ListSugar.Proofs.Pass.Numbers
import ListSugar.Proofs.Texts
import ListSugar.Proofs.Typing.Closed
import ListSugar.Proofs.Typing.Refined

namespace ListSugar

/-! ### Types that are read back as themselves

A construction spells the type of its elements, and the model of the expanded program
reads the spelling again.  Longer names of predefined types are read as the short ones
are, so a type that comes from a written one is spelled in a form that gives it back.
-/

namespace Ty

/-- The type is read back from its spelling. -/
def Canonical (ty : Ty) : Prop := ofTypeExpr ty.toTypeExpr = ty

theorem canonical_list {ty : Ty} : (Ty.list ty).Canonical ↔ ty.Canonical := by
  show ofGeneric "List" [ofTypeExpr ty.toTypeExpr] = .list ty ↔ _
  rw [ofGeneric, if_pos rfl]
  rw [Ty.list.injEq]
  exact Iff.rfl

theorem canonical_array {ty : Ty} : (Ty.array ty).Canonical ↔ ty.Canonical := by
  show Ty.array (ofTypeExpr ty.toTypeExpr) = .array ty ↔ _
  rw [Ty.array.injEq]
  exact Iff.rfl

theorem closed_canonical : Closed Canonical where
  int := rfl
  double := rfl
  bool := rfl
  char := rfl
  str := rfl
  unknown := rfl
  element := by
    intro ty h
    cases ty with
    | list inner => exact canonical_list.mp h
    | array inner => exact canonical_array.mp h
    | _ => rfl

theorem canonical_ofName (name : String) : (ofName name).Canonical := by
  by_cases hother : ofName name = .named name []
  · rw [hother]
    exact hother
  · unfold ofName at hother ⊢
    split <;> first | rfl | simp at hother

theorem canonical_ofGeneric (name : String) {args : List Ty} (h : ∀ a ∈ args, a.Canonical) :
    (ofGeneric name args).Canonical := by
  match args with
  | [] => exact canonical_ofName name
  | [arg] =>
    have harg : arg.Canonical := h arg (by simp)
    by_cases hname : name = "List"
    · rw [ofGeneric, if_pos hname]
      exact canonical_list.mpr harg
    · rw [ofGeneric, if_neg hname]
      show ofGeneric name [ofTypeExpr arg.toTypeExpr] = _
      rw [harg, ofGeneric, if_neg hname]
  | first :: second :: rest =>
    have hall : ofTypeExprs (toTypeExprs (first :: second :: rest)) = first :: second :: rest := by
      rw [ofTypeExprs_eq, toTypeExprs_eq, List.map_map]
      exact (List.map_congr_left h).trans (List.map_id' _)
    show ofGeneric name (ofTypeExprs (toTypeExprs (first :: second :: rest))) = _
    rw [hall]

/-- **Every type that is written is read back from its spelling.** -/
theorem canonical_ofTypeExpr (ty : TypeExpr) : (ofTypeExpr ty).Canonical := by
  induction ty using TypeExpr.args_induction with
  | named name args ih =>
    rw [ofTypeExpr, ofTypeExprs_eq]
    refine canonical_ofGeneric name fun a ha => ?_
    obtain ⟨b, hb, rfl⟩ := List.mem_map.mp ha
    exact ih b hb
  | array element ih => exact canonical_array.mpr ih
  | unresolved => rfl

end Ty

/-! ### The program before and after

Numbers connect the two models.  They are unique in both programs, so a node that is kept
is found again by its number, in a scope that refines its old one, and a node with a
number from the first new one on is the construction of a site.
-/

namespace Program

open Desugar Stmt

variable {p : Program}

theorem mem_nodes_iff_scoped {n : Expr} :
    n ∈ p.nodes ↔ ∃ r ∈ scopedRootsOfAll .empty p.stmts, n ∈ r.2.nodes := by
  rw [nodes_eq_flatMap, roots, roots_eq_map_snd p.stmts .empty, List.flatMap_map,
    List.mem_flatMap]

theorem IsRead.below {p : Program} (h : p.IsRead) :
    ∀ e ∈ p.roots, ∀ x ∈ e.nodes, x.id < p.nextId := by
  intro e he x hx
  exact h.id_lt x (mem_nodes_of_mem_roots he hx)

/-- Numbers are unique in the expanded program. -/
theorem IsRead.nodup_desugar (h : p.IsRead) (options : Options) :
    ((p.desugar options).program.nodes.map Expr.id).Nodup := by
  have hnodup := h.nodup
  rw [nodes_eq_flatMap] at hnodup ⊢
  have hafter := Setting.nodup_exprs (s := p.setting options) hnodup h.below (Nat.le_refl p.nextId)
  rwa [exprs_desugar] at hafter

/-- The new nodes of the expanded program are the constructions of the expanded sites. -/
theorem IsRead.creates_desugar (h : p.IsRead) (options : Options) :
    CreatesAll (p.setting options) (expansions (p.desugar options).visits) p.nextId
      ((p.desugar options).program.nodes.filter fun n => p.nextId ≤ n.id) := by
  have hcreates := Setting.creates_exprs (s := p.setting options) h.below (Nat.le_refl p.nextId)
  rwa [exprs_desugar, ← nodes_eq_flatMap] at hcreates

/-- **A list literal has no type as it is read.** -/
theorem IsRead.typeOf_of_expands (h : p.IsRead) {options : Options} {n : Expr} (hn : n ∈ p.nodes)
    (hexpand : ((p.setting options).judge n).Expands) :
    (Model.ofProgram p).typeOf n = .unknown := by
  obtain ⟨r, hr, hnr⟩ := mem_nodes_iff_scoped.mp hn
  obtain ⟨site, elements, hj⟩ := hexpand
  obtain ⟨m, receiver, args, shape, rfl, hshape, -⟩ := Setting.judge_eq_expand hj
  rw [Model.typeOf_eq h.nodup hr hnr]
  exact Typing.infer_index_of_literal hshape r.1

/-- **A node that is kept has a refined type in the expanded program.** -/
theorem IsRead.refined_typeOf (h : p.IsRead) {options : Options} {n : Expr}
    (hn : n ∈ (p.desugar options).program.nodes) (hold : n.id ∈ p.nodes.map Expr.id) :
    ((Model.ofProgram p).typeOf n).RefinedBy
      ((Model.ofProgram (p.desugar options).program).typeOf n) := by
  obtain ⟨r', hr', hnr'⟩ := mem_nodes_iff_scoped.mp hn
  have hrel := p.related_desugar options
  obtain ⟨r, hr, hscope, hR⟩ := Typing.refined_scopedRootsOfAll hrel
    (fun st _ => Typing.refined_scopedRoots st) Scope.refined_empty r' hr'
  obtain ⟨n₀, hn₀, hRn⟩ := hR.exists_node n hnr'
  have hid : n.id = n₀.id := by
    rcases hRn.replaces_or_keeps with ⟨site, elements, id, -, hid, rfl⟩ | hkeep
    · -- A new node has a number that no node of the program has.
      obtain ⟨x, hx, hxid⟩ := List.mem_map.mp hold
      have hlt := h.id_lt x hx
      rw [hxid, Expr.id, mark_construct] at hlt
      simp at hlt
      omega
    · rw [Expr.id, Expr.id, hkeep.mark]
  have hbefore : (Model.ofProgram p).typeOf n = (Typing.infer r.1 n₀).result := by
    rw [← Model.typeOf_eq h.nodup hr hn₀]
    unfold Model.typeOf
    rw [hid]
  rw [hbefore, Model.typeOf_eq (h.nodup_desugar options) hr' hnr']
  exact Typing.refined_infer n₀ hRn hscope

/-- Every type in the model of a program is read back from its spelling. -/
theorem canonical_typeOf (p : Program) (x : Expr) : ((Model.ofProgram p).typeOf x).Canonical :=
  Typing.closed_typeOfId Ty.closed_canonical
    ⟨fun _ _ _ ty _ _ _ => Ty.canonical_ofTypeExpr ty, fun ty _ => Ty.canonical_ofTypeExpr ty⟩ x.id

theorem canonical_elementType (p : Program) (elements : List Expr) :
    (Expr.elementType (Model.ofProgram p).typeOf elements).Canonical := by
  cases elements with
  | nil => rfl
  | cons first rest => exact canonical_typeOf p first

/-- The type of a construction is the one that it writes. -/
theorem typeOf_new (hnodup : (p.nodes.map Expr.id).Nodup) {m : Mark} {ty : TypeExpr}
    {args init : Option (List Expr)} (hn : .new m ty args init ∈ p.nodes) :
    (Model.ofProgram p).typeOf (.new m ty args init) = .ofTypeExpr ty := by
  obtain ⟨r, hr, hnr⟩ := mem_nodes_iff_scoped.mp hn
  rw [Model.typeOf_eq hnodup hr hnr]
  rfl

/-- The construction of a list has the list type of its site. -/
theorem typeOf_creates {options : Options} (hlist : options.container = "List") {q : Program}
    (hnodup : (q.nodes.map Expr.id).Nodup) {site : Site} {id : Nat} {n : Expr}
    (h : Creates (p.setting options) site id n) (hn : n ∈ q.nodes) :
    (Model.ofProgram q).typeOf n = .list site.ty := by
  obtain ⟨elements, -, hty, rfl⟩ := h
  have hcanonical : site.ty.Canonical := by
    rw [hty]
    exact canonical_elementType p elements
  cases elements with
  | nil =>
    rw [Expr.construct] at hn ⊢
    rw [typeOf_new hnodup hn, hty]
    show Ty.ofGeneric options.container [.object] = _
    rw [hlist]
    rfl
  | cons first rest =>
    rw [Expr.construct] at hn ⊢
    rw [typeOf_new hnodup hn]
    show Ty.ofGeneric options.container [.ofTypeExpr site.ty.toTypeExpr] = _
    rw [hcanonical, hlist]
    rfl

theorem map_typeOf_creates {options : Options} (hlist : options.container = "List") {q : Program}
    (hnodup : (q.nodes.map Expr.id).Nodup) : ∀ {sites : List Site} {id : Nat} {ns : List Expr},
    CreatesAll (p.setting options) sites id ns → (∀ n ∈ ns, n ∈ q.nodes) →
      ns.map (Model.ofProgram q).typeOf = sites.map fun site => .list site.ty := by
  intro sites
  induction sites with
  | nil =>
    intro id ns h _
    obtain rfl : ns = [] := h
    rfl
  | cons site rest ih =>
    intro id ns h hns
    obtain ⟨n, ns', hn, hrest, rfl⟩ := h
    rw [List.map_cons, List.map_cons, typeOf_creates hlist hnodup hn (hns n (by simp)),
      ih hrest fun x hx => hns x (by simp [hx])]

/-- The site of an empty literal is reported with the type of every value. -/
theorem ty_of_count_eq_zero {options : Options} : ∀ {sites : List Site} {id : Nat}
    {ns : List Expr}, CreatesAll (p.setting options) sites id ns →
      ∀ site ∈ sites, site.count = 0 → site.ty = .object := by
  intro sites
  induction sites with
  | nil =>
    intro id ns _ site hsite
    cases hsite
  | cons first rest ih =>
    intro id ns h site hsite hcount
    obtain ⟨n, ns', ⟨elements, hlength, hty, -⟩, hrest, rfl⟩ := h
    rcases List.mem_cons.mp hsite with rfl | hsite
    · obtain rfl : elements = [] := List.length_eq_zero_iff.mp (hlength ▸ hcount)
      exact hty
    · exact ih hrest site hsite hcount

end Program

/-- **Expanding literals invalidates no inferred type.**  For a program that was read, a
node that is expanded had no type; a node that keeps its number keeps its type, if it had
one; and if the container is the list, the new nodes, in order, have the list types of the
expanded sites, whose elements are objects where there are none. -/
theorem typeOf_desugar {source : String} {p : Program} (hp : Program.ofText source = .ok p)
    (options : Options) :
    (∀ n ∈ p.nodes, (∃ site elements, (p.setting options).judge n = .expand site elements) →
      (Model.ofProgram p).typeOf n = .unknown) ∧
    (∀ n ∈ (p.desugar options).program.nodes, n.id ∈ p.nodes.map Expr.id →
      (Model.ofProgram p).typeOf n ≠ .unknown →
        (Model.ofProgram (p.desugar options).program).typeOf n = (Model.ofProgram p).typeOf n) ∧
    (options.container = "List" →
      ((p.desugar options).program.nodes.filter fun n => p.nextId ≤ n.id).map
          (Model.ofProgram (p.desugar options).program).typeOf
        = ((p.desugar options).report.sites.filter fun site => site.outcome = .expanded).map
          fun site => .list site.ty) ∧
    ∀ site ∈ (p.desugar options).report.sites, site.outcome = .expanded → site.count = 0 →
      site.ty = .object := by
  have hread := Program.isRead_of_ofText hp
  have hcreates := hread.creates_desugar options
  refine ⟨?_, ?_, ?_, ?_⟩
  · intro n hn hexpand
    exact hread.typeOf_of_expands hn hexpand
  · intro n hn hold hknown
    exact (hread.refined_typeOf hn hold).eq hknown
  · intro hlist
    refine Program.map_typeOf_creates hlist (hread.nodup_desugar options) hcreates ?_
    intro n hn
    exact (List.mem_filter.mp hn).1
  · intro site hsite houtcome
    refine Program.ty_of_count_eq_zero hcreates site ?_
    exact List.mem_filter.mpr ⟨hsite, by simpa using houtcome⟩

/-- The construction that a literal of a whole number becomes is, in the model of the expanded
program, a list of whole numbers. -/
theorem typeOf_desugar_var : ∃ p, Program.ofText "var y = [<1>];" = .ok p ∧
    (p.desugar {}).report.sites.map Site.ty = [.int] ∧
    ((p.desugar {}).program.nodes.filter fun n => p.nextId ≤ n.id).map
      (Model.ofProgram (p.desugar {}).program).typeOf = [.list .int] := by
  have hsites : ((Program.ofText "var y = [<1>];").map fun p =>
      (p.desugar {}).report.sites.map fun site =>
        (site.ty.isNumeric, site.ty.text, site.outcome)) =
        .ok [(true, "int", .expanded)] := by
    decide +kernel
  obtain ⟨p, hp, hsites⟩ := map_eq_ok_iff.mp hsites
  obtain ⟨site, hreport, hty⟩ := List.map_eq_singleton_iff.mp hsites
  simp only [Prod.mk.injEq] at hty
  obtain ⟨hnumeric, htext, hexpanded⟩ := hty
  -- The numeric types are told apart by their texts.
  have hint : site.ty = .int := by
    cases hcase : site.ty <;> simp [hcase, Ty.isNumeric, Ty.text] at hnumeric htext ⊢
  refine ⟨p, hp, by simp [hreport, hint], ?_⟩
  rw [(typeOf_desugar hp {}).2.2.1 rfl, hreport]
  simp [hint, hexpanded]

end ListSugar
