/-
Types that are known in every part.

A type may be known without being known in every part, like a list of something unknown.
No such type comes up in a program that was read: what is written there is known in every
part, and the rules either name a type or take one apart.  So a run that leaves alone the
literals of unknown type writes only types that can be read again.
-/
import ListSugar.Proofs.Pass.Rewrites
import ListSugar.Proofs.Texts
import ListSugar.Proofs.Typing.Closed

namespace ListSugar

namespace Ty

/-- If the type is known, it is known in every part. -/
def Whole (ty : Ty) : Prop := ty.isKnown = true → ty.toTypeExpr.isResolved = true

theorem closed_whole : Closed Whole where
  int := fun _ => rfl
  double := fun _ => rfl
  bool := fun _ => rfl
  char := fun _ => rfl
  str := fun _ => rfl
  unknown := fun h => by cases h
  element := by
    intro ty h
    cases ty with
    | list inner => exact fun _ => TypeExpr.allResolved_iff.mp (h rfl) inner.toTypeExpr (by simp)
    | array inner => exact fun _ => h rfl
    | str => exact fun _ => rfl
    | _ => exact fun hknown => by cases hknown

theorem isResolved_ofName (name : String) : (ofName name).toTypeExpr.isResolved = true := by
  unfold ofName
  split <;> rfl

theorem isResolved_ofGeneric {name : String} {args : List Ty}
    (h : ∀ a ∈ args, a.toTypeExpr.isResolved = true) :
    (ofGeneric name args).toTypeExpr.isResolved = true := by
  have hother : (named name args).toTypeExpr.isResolved = true := by
    refine TypeExpr.allResolved_iff.mpr ?_
    rw [toTypeExprs_eq]
    exact List.forall_mem_map.mpr h
  match args with
  | [] => exact isResolved_ofName name
  | [arg] =>
    by_cases hname : name = "List"
    · rw [ofGeneric, if_pos hname]
      exact TypeExpr.allResolved_iff.mpr (by simpa using h)
    · rw [ofGeneric, if_neg hname]
      exact hother
  | _ :: _ :: _ => exact hother

/-- A type that is written without a gap is known in every part. -/
theorem isResolved_ofTypeExpr (ty : TypeExpr) : ty.isResolved = true →
    (ofTypeExpr ty).toTypeExpr.isResolved = true := by
  induction ty using TypeExpr.args_induction with
  | named name args ih =>
    intro h
    rw [ofTypeExpr, ofTypeExprs_eq]
    refine isResolved_ofGeneric (List.forall_mem_map.mpr fun a ha => ih a ha ?_)
    exact TypeExpr.allResolved_iff.mp h a ha
  | array element ih => exact ih
  | unresolved => exact id

end Ty

/-! ### Declared types -/

/-- The types that a readable statement declares are known in every part. -/
theorem Stmt.WellFormed.isResolved_of_types {st : Stmt} : st.WellFormed →
    ∀ ty ∈ st.types, ty.isResolved = true := by
  induction st using parts_induction with
  | step st ih =>
    intro hwf ty hty
    cases st with
    | declare ty' name init line => exact hwf.1 ty (by simpa [types] using hty)
    | assign target value => cases hty
    | expr value => cases hty
    | block stmts =>
      rw [types, typesOfAll_eq, List.mem_flatMap] at hty
      obtain ⟨p, hp, hty⟩ := hty
      exact ih p (by simpa [parts] using hp) (allWellFormed_iff.mp hwf p hp) ty hty
    | branch cond thenBranch elseBranch =>
      rcases List.mem_append.mp hty with hty | hty
      · exact ih thenBranch (by simp [parts]) hwf.2.1 ty hty
      · cases elseBranch with
        | none => cases hty
        | some other => exact ih other (by simp [parts]) hwf.2.2.2 ty hty
    | foreach ty' name iter body =>
      rcases List.mem_append.mp hty with hty | hty
      · exact hwf.1 ty (by simpa using hty)
      · exact ih body (by simp [parts]) hwf.2.2 ty hty

/-! ### Constructions

A run that abstains expands a literal only if its type is known, and a known type of the
model is known in every part.  The types of all other constructions were written in the
text.
-/

namespace Desugar.Setting

variable {s : Setting} {k : Nat}

/-- Under the policy to abstain, a construction in place of a literal is resolved. -/
theorem Replaces.resolvedNode (habstain : s.options.onUnresolved = .abstain)
    (hwhole : ∀ x, (s.typeOf x).Whole) {e e' : Expr} (h : s.Replaces k e e') :
    e'.ResolvedNode := by
  obtain ⟨site, elements, id, hj, -, rfl⟩ := h
  have hknown : site.ty.isKnown = true := by
    simpa [expands, habstain] using expands_of_judge hj
  obtain ⟨m, receiver, args, shape, -, -, -, rfl⟩ := judge_eq_expand hj
  cases elements with
  | nil => rfl
  | cons first rest =>
    refine TypeExpr.allResolved_iff.mpr fun ty hty => ?_
    obtain rfl : ty = (s.typeOf first).toTypeExpr := by simpa [Expr.elementType] using hty
    exact hwhole first hknown

/-- A rewritten node without a gap in its type has none, unless it is replaced. -/
theorem Rewrites.replaces_or_resolved {e e' : Expr} (h : s.Rewrites k e e')
    (hres : e.ResolvedNode) : s.Replaces k e e' ∨ e'.ResolvedNode := by
  cases e' with
  | new m' ty' args' init' =>
    cases e with
    | index m receiver args =>
      rcases h with h | ⟨receiver', args', -, -, heq⟩
      · exact Or.inl h
      · cases heq
    | new m ty args init =>
      obtain ⟨args', init', -, -, heq⟩ := h
      cases heq
      exact Or.inr hres
    | _ => simp [Rewrites] at h
  | _ => exact Or.inr trivial

theorem Rewrites.resolvedNode (habstain : s.options.onUnresolved = .abstain)
    (hwhole : ∀ x, (s.typeOf x).Whole) {e e' : Expr} (h : s.Rewrites k e e')
    (hres : e.ResolvedNode) : e'.ResolvedNode := by
  rcases h.replaces_or_resolved hres with hreplace | hres'
  · exact hreplace.resolvedNode habstain hwhole
  · exact hres'

end Desugar.Setting

namespace Program

/-- Every type in the model of a program that was read is unknown, or known in every part. -/
theorem IsRead.whole_typeOf {p : Program} (h : p.IsRead) (n : Expr) :
    ((Model.ofProgram p).typeOf n).Whole := by
  refine Typing.closed_typeOfId Ty.closed_whole ⟨?_, ?_⟩ n.id
  · intro e he m ty args init hmem _
    exact Ty.isResolved_ofTypeExpr ty (h.resolved e he _ hmem)
  · intro ty hty _
    rw [Stmt.typesOfAll_eq, List.mem_flatMap] at hty
    obtain ⟨st, hst, hty⟩ := hty
    have hwf := Stmt.allWellFormed_iff.mp h.wellFormed st hst
    exact Ty.isResolved_ofTypeExpr ty (hwf.isResolved_of_types ty hty)

/-- **A run that abstains writes only types that are known in every part.** -/
theorem IsRead.resolved_desugar {p : Program} (h : p.IsRead) {options : Options}
    (habstain : options.onUnresolved = .abstain) :
    ∀ e ∈ (p.desugar options).program.roots, e.Resolved := by
  intro e' he' n' hn'
  obtain ⟨n, hn, hR⟩ := exists_rewritten (mem_nodes_of_mem_roots he' hn')
  rw [nodes_eq_flatMap, List.mem_flatMap] at hn
  obtain ⟨e, he, hn⟩ := hn
  exact hR.resolvedNode habstain h.whole_typeOf (h.resolved e he n hn)

end Program

end ListSugar
