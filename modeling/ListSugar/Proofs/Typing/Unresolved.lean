/-
Which types are reported as unresolved.

The policy looks at a type from outside: whether anything at all is known of it.  A
diagnostic looks at every part of it.  The two agree on a program that was read, since each
type of its model is unknown or has no unknown part.  So the constructions with a gap in
their types are those of the literals that were expanded without knowing a type, in the same
order; what else is reported is an operand that is missing.
-/
import ListSugar.Proofs.Typing.Expanded
import ListSugar.Proofs.Typing.Resolved

namespace ListSugar

/-! ### The parts of a type

That a type is unknown and that something in it is unknown are two things.  They are set
side by side here, so that the types of a model can be shown to have the first wherever
they have the second.
-/

namespace Ty

mutual

/-- The types that a type is made of, with the type itself. -/
def within : Ty → List Ty
  | .list inner => .list inner :: inner.within
  | .array inner => .array inner :: inner.within
  | .named name args => .named name args :: withinAll args
  | ty => [ty]

/-- The types that several types are made of. -/
def withinAll : List Ty → List Ty
  | [] => []
  | ty :: rest => ty.within ++ withinAll rest

end

mutual

/-- A type is spelled without a gap if nothing in it is unknown. -/
theorem isResolved_toTypeExpr : (ty : Ty) →
    (ty.toTypeExpr.isResolved = true ↔ .unknown ∉ ty.within)
  | .int | .double | .bool | .char | .str | .object => by
    simp [toTypeExpr, within, TypeExpr.simple, TypeExpr.isResolved, TypeExpr.allResolved]
  | .unknown => by simp [toTypeExpr, within, TypeExpr.isResolved]
  | .list inner => by
    have ih := isResolved_toTypeExpr inner
    simpa [toTypeExpr, within, TypeExpr.isResolved, TypeExpr.allResolved] using ih
  | .array inner => by
    have ih := isResolved_toTypeExpr inner
    simpa [toTypeExpr, within, TypeExpr.isResolved] using ih
  | .named name args => by
    have ih := allResolved_toTypeExprs args
    simpa [toTypeExpr, within, TypeExpr.isResolved] using ih

theorem allResolved_toTypeExprs : (tys : List Ty) →
    (TypeExpr.allResolved (toTypeExprs tys) = true ↔ .unknown ∉ withinAll tys)
  | [] => by simp [toTypeExprs, withinAll, TypeExpr.allResolved]
  | ty :: rest => by
    have hfirst := isResolved_toTypeExpr ty
    have hrest := allResolved_toTypeExprs rest
    simp [toTypeExprs, withinAll, TypeExpr.allResolved, hfirst, hrest]

end

theorem isKnown_eq_false_iff {ty : Ty} : ty.isKnown = false ↔ ty = .unknown := by
  cases ty <;> simp [isKnown]

/-- If a type is unknown or known in every part, unknown is the only type in it that is. -/
theorem Whole.unknown_or {ty : Ty} (h : ty.Whole) : ty = .unknown ∨ .unknown ∉ ty.within := by
  by_cases hknown : ty.isKnown = true
  · exact Or.inr (ty.isResolved_toTypeExpr.mp (h hknown))
  · exact Or.inl (isKnown_eq_false_iff.mp (by simpa using hknown))

end Ty

/-! ### Diagnostics by their wording

A diagnostic is seen by its place and its wording only.  The two kinds of defect are told
apart by how the wording begins, and each kind is an equation between lists that follows
the nodes.
-/

namespace Defect

/-- Whether the wording of a defect says that a type could not be inferred. -/
def namesType (d : Defect) : Bool :=
  "cannot infer element type".toList.isPrefixOf d.message.toList

theorem toList_message_unresolvedType (ty : TypeExpr) : (unresolvedType ty).message.toList =
    "cannot infer element type for 'new ".toList ++ (ty.render ++ "'").toList := by
  rw [← String.toList_append, ← String.append_assoc]
  rfl

theorem namesType_unresolvedType (ty : TypeExpr) : (unresolvedType ty).namesType = true := by
  have htext : "cannot infer element type".toList <+:
      "cannot infer element type for 'new ".toList := by decide +kernel
  unfold namesType
  rw [List.isPrefixOf_iff_prefix, toList_message_unresolvedType]
  exact htext.trans (List.prefix_append _ _)

theorem namesType_missingOperand : missingOperand.namesType = false := by
  decide +kernel

end Defect

namespace Diagnostic

open Defect

/-- The place and the wording of a diagnostic. -/
def remark (d : Diagnostic) : Pos × String := (d.pos, d.defect.message)

/-- What is said about the type of a node. -/
def typeRemark? (n : Expr) : Option (Pos × String) :=
  ((ofNode n).filter (·.defect.namesType)).map remark

theorem map_remark_filter_namesType (ns : List Expr) :
    ((ns.filterMap ofNode).filter (·.defect.namesType)).map remark = ns.filterMap typeRemark? := by
  rw [List.filter_filterMap, List.map_filterMap]
  rfl

theorem typeRemark?_of_resolved {n : Expr} (h : n.ResolvedNode) : typeRemark? n = none := by
  cases n with
  | missing m => simp [typeRemark?, ofNode, namesType_missingOperand]
  | new m ty args init =>
    have hres : ty.isResolved = true := h
    simp [typeRemark?, ofNode, hres]
  | _ => rfl

theorem typeRemark?_of_not_resolved {m : Mark} {ty : TypeExpr} {args init : Option (List Expr)}
    (h : ty.isResolved = false) : typeRemark? (.new m ty args init) =
      some (m.pos, "cannot infer element type for 'new " ++ ty.render ++ "'") := by
  have hnode : ofNode (.new m ty args init) = some ⟨.unresolvedType ty, m.pos⟩ := by
    simp [ofNode, h]
  rw [typeRemark?, hnode, Option.filter_some, if_pos (namesType_unresolvedType ty)]
  rfl

/-- What is not said about types is that an operand is missing. -/
theorem map_remark_filter_not_namesType (ns : List Expr) :
    ((ns.filterMap ofNode).filter (!·.defect.namesType)).map remark =
      (ns.filter Expr.isMissing).map fun n => (n.pos, "expected expression") := by
  induction ns with
  | nil => rfl
  | cons n rest ih =>
    cases n with
    | missing m =>
      have hnode : ofNode (.missing m) = some ⟨.missingOperand, m.pos⟩ := rfl
      rw [List.filterMap_cons_some hnode,
        List.filter_cons_of_pos (by simp [namesType_missingOperand]), List.map_cons, ih,
        List.filter_cons_of_pos rfl, List.map_cons]
      rfl
    | new m ty args init =>
      by_cases hres : ty.isResolved = true
      · simpa [List.filterMap_cons, ofNode, hres, Expr.isMissing] using ih
      · simpa [List.filterMap_cons, ofNode, hres, Expr.isMissing,
          namesType_unresolvedType] using ih
    | _ => simpa [List.filterMap_cons, ofNode, Expr.isMissing] using ih

end Diagnostic

/-! ### Constructions with a gap

Only a new node can have a gap in its type, since every type that a program writes is read
without one.  The new nodes are the constructions of the expanded sites in order, so those
with a gap are the ones whose site has an unknown type.
-/

/-- The remark for a site whose type is unknown. -/
def Site.remark (container : String) (site : Site) : Pos × String :=
  (site.pos, "cannot infer element type for 'new " ++ container ++ "<?>'")

theorem TypeExpr.render_gap (container : String) :
    (TypeExpr.named container [.unresolved]).render = container ++ "<?>" := by
  show container ++ "<" ++ Text.listing ["?"] ++ ">" = _
  rw [String.append_assoc, String.append_assoc]
  rfl

namespace Desugar

open Diagnostic

variable {s : Setting}

theorem Creates.typeRemark? (hwhole : ∀ x, (s.typeOf x).Whole) {site : Site} {id : Nat} {n : Expr}
    (h : Creates s site id n) :
    typeRemark? n = if site.ty.isKnown then none else some (site.remark s.options.container) := by
  obtain ⟨elements, -, hty, rfl⟩ := h
  cases elements with
  | nil =>
    have hobject : (Expr.construct s.options.container site.ty ⟨id, site.pos⟩ []).ResolvedNode :=
      rfl
    rw [typeRemark?_of_resolved hobject, hty]
    rfl
  | cons first rest =>
    have hty : site.ty = s.typeOf first := hty
    rw [Expr.construct, hty]
    by_cases hknown : (s.typeOf first).isKnown = true
    · have hres : (s.typeOf first).toTypeExpr.isResolved = true := hwhole first hknown
      rw [if_pos hknown, typeRemark?_of_resolved]
      exact TypeExpr.allResolved_iff.mpr (by simpa using hres)
    · have hunknown := Ty.isKnown_eq_false_iff.mp (by simpa using hknown)
      rw [if_neg hknown, hunknown, typeRemark?_of_not_resolved rfl]
      show some (site.pos, _ ++ (TypeExpr.named s.options.container [.unresolved]).render ++ _) = _
      rw [TypeExpr.render_gap, Site.remark, ← String.append_assoc, String.append_assoc]
      rfl

theorem CreatesAll.filterMap_typeRemark? (hwhole : ∀ x, (s.typeOf x).Whole) :
    ∀ {sites : List Site} {id : Nat} {ns : List Expr}, CreatesAll s sites id ns →
      ns.filterMap typeRemark? =
        (sites.filter fun site => !site.ty.isKnown).map (Site.remark s.options.container) := by
  intro sites
  induction sites with
  | nil =>
    rintro id ns rfl
    rfl
  | cons site rest ih =>
    rintro id ns ⟨n, ns', hn, hrest, rfl⟩
    by_cases hknown : site.ty.isKnown = true
    · simp [hn.typeRemark? hwhole, ih hrest, hknown]
    · simp [hn.typeRemark? hwhole, ih hrest, hknown]

end Desugar

namespace Program

open Desugar Diagnostic

variable {p : Program}

/-- A node of the expanded program is new, or has no gap in its type. -/
theorem IsRead.new_or_resolved (h : p.IsRead) {options : Options} {n' : Expr}
    (hn' : n' ∈ (p.desugar options).program.nodes) : p.nextId ≤ n'.id ∨ n'.ResolvedNode := by
  obtain ⟨n, hn, hR⟩ := exists_rewritten hn'
  rw [nodes_eq_flatMap, List.mem_flatMap] at hn
  obtain ⟨e, he, hn⟩ := hn
  have hnode := h.resolved e he n hn
  rcases hR.replaces_or_resolved hnode with ⟨site, elements, id, -, hid, rfl⟩ | hres
  · refine Or.inl ?_
    rw [Expr.id, mark_construct]
    exact hid
  · exact Or.inr hres

/-- What is said about types is said about the new nodes. -/
theorem IsRead.filterMap_typeRemark? (h : p.IsRead) (options : Options) :
    (p.desugar options).program.nodes.filterMap typeRemark? =
      ((expansions (p.desugar options).visits).filter fun site => !site.ty.isKnown).map
        (Site.remark options.container) := by
  have hnew : (p.desugar options).program.nodes.filterMap typeRemark? =
      ((p.desugar options).program.nodes.filter fun n => p.nextId ≤ n.id).filterMap
        typeRemark? := by
    rw [List.filterMap_filter]
    refine List.filterMap_congr fun n hn => ?_
    rcases h.new_or_resolved hn with hid | hres
    · simp [hid]
    · simp [typeRemark?_of_resolved hres]
  rw [hnew]
  exact (h.creates_desugar options).filterMap_typeRemark? h.whole_typeOf

/-- No type that the expanded program declares has a gap. -/
theorem IsRead.isResolved_types (h : p.IsRead) (options : Options) :
    ∀ ty ∈ Stmt.typesOfAll (p.desugar options).program.stmts, ty.isResolved = true := by
  intro ty hty
  have hwf := Setting.allWellFormed_stmts (s := p.setting options) h.wellFormed p.nextId
  rw [Stmt.typesOfAll_eq, List.mem_flatMap] at hty
  obtain ⟨st, hst, hty⟩ := hty
  exact (Stmt.allWellFormed_iff.mp hwf st hst).isResolved_of_types ty hty

end Program

/-- **Unresolved types are reported exactly.**  A text that is read can be desugared.  The
diagnostics that say that a type cannot be inferred are, in order and by their places, the
sites that were expanded with an unknown type; the others say that an operand is expected,
once for each missing node.  If the policy is to abstain, no written type of the result has
a gap in any part, since each type in the model of the program as read is unknown or has
nothing unknown inside. -/
theorem diagnostics_desugar {source : String} {p : Program} (hp : Program.ofText source = .ok p)
    (options : Options) :
    ∃ d, desugar source options = .ok d ∧
      (d.diagnostics.filter (·.defect.namesType)).map Diagnostic.remark =
        (d.report.sites.filter fun site => site.outcome = .expanded ∧ site.ty.isKnown = false).map
          (fun site => (site.pos,
            "cannot infer element type for 'new " ++ options.container ++ "<?>'")) ∧
      (d.diagnostics.filter (!·.defect.namesType)).map Diagnostic.remark =
        (d.program.nodes.filter Expr.isMissing).map (fun n => (n.pos, "expected expression")) ∧
      (options.onUnresolved = .abstain →
        (∀ m ty args init, .new m ty args init ∈ d.program.nodes → ty.isResolved = true) ∧
        ∀ ty ∈ Stmt.typesOfAll d.program.stmts, ty.isResolved = true) ∧
      ∀ id, (Model.ofProgram p).typeOfId id = .unknown ∨
        .unknown ∉ ((Model.ofProgram p).typeOfId id).within := by
  have hread := Program.isRead_of_ofText hp
  refine ⟨p.desugar options, desugar_of_ofText hp options, ?_, ?_, ?_, ?_⟩
  · show (((p.desugar options).program.nodes.filterMap Diagnostic.ofNode).filter
      (·.defect.namesType)).map Diagnostic.remark = _
    rw [Diagnostic.map_remark_filter_namesType, hread.filterMap_typeRemark?,
      Desugar.expansions, List.filter_filter]
    congr 2
    funext site
    cases site.ty.isKnown <;> simp
  · exact Diagnostic.map_remark_filter_not_namesType _
  · intro habstain
    refine ⟨fun m ty args init hmem => ?_, hread.isResolved_types options⟩
    rw [Program.nodes_eq_flatMap, List.mem_flatMap] at hmem
    obtain ⟨e, he, hmem⟩ := hmem
    exact hread.resolved_desugar habstain e he _ hmem
  · intro id
    exact (hread.whole_typeOf (.missing ⟨id, .start⟩)).unknown_or

/-- Under the policy to proceed, a literal of unknown type is expanded and reported, and so is a
missing operand. -/
theorem diagnostics_desugar_proceed : ∃ p d,
    Program.ofText "var x = f([<y, 1>], 2 + );" = .ok p ∧
      desugar "var x = f([<y, 1>], 2 + );" ⟨"Bag", .proceed⟩ = .ok d ∧
      (d.diagnostics.filter (·.defect.namesType)).map Diagnostic.remark =
        [(⟨1, 11⟩, "cannot infer element type for 'new Bag<?>'")] ∧
      (d.diagnostics.filter (!·.defect.namesType)).map Diagnostic.remark =
        [(⟨1, 25⟩, "expected expression")] := by
  have hrun : (desugar "var x = f([<y, 1>], 2 + );" ⟨"Bag", .proceed⟩).map (fun d =>
      (d.report.sites.map fun site => (site.pos, site.outcome, site.ty.isKnown),
        (d.program.nodes.filter Expr.isMissing).map Expr.pos)) =
      .ok ([(⟨1, 11⟩, .expanded, false)], [⟨1, 25⟩]) := by
    decide +kernel
  obtain ⟨d', hd', hrun⟩ := map_eq_ok_iff.mp hrun
  obtain ⟨p, hp, -⟩ := desugar_eq_ok_iff.mp hd'
  obtain ⟨d, hd, htypes, hothers, -⟩ := diagnostics_desugar hp ⟨"Bag", .proceed⟩
  obtain rfl := Except.ok.inj (hd.symm.trans hd')
  obtain ⟨hsites, hmissing⟩ := Prod.mk.inj hrun
  obtain ⟨site, hsite, hremark⟩ := List.map_eq_singleton_iff.mp hsites
  obtain ⟨n, hn, hpos⟩ := List.map_eq_singleton_iff.mp hmissing
  simp only [Prod.mk.injEq] at hremark
  refine ⟨p, d, hp, hd, ?_, ?_⟩
  · rw [htypes, hsite]
    simp [hremark]
  · rw [hothers, hn, List.map_singleton, hpos]

end ListSugar
