/-
The shapes of a list literal.

What `delimited?` recognises is said here once, as the trees that it accepts: a single
argument is a comparison by `>` with a comparison by `<` on one of its sides, and several
arguments begin with one by `<` and end with one by `>`.  The elements are operands of
these comparisons and the arguments between them, so they are nodes of the arguments, in
the same order, and no node is in two of them.
-/
import Mathlib.Data.List.Flatten
import ListSugar.ListLiteral
import ListSugar.Proofs.Trees

namespace ListSugar

namespace Expr

theorem comparison?_eq_some_iff {op : BinaryOp} {e : Expr} {c : Comparison} :
    e.comparison? op = some c ↔ e = .binary c.mark op c.left c.right := by
  constructor
  · intro h
    cases e with
    | binary m found left right =>
      simp only [comparison?] at h
      split at h
      · cases h
        subst op
        rfl
      · cases h
    | _ => cases h
  · rintro rfl
    simp [comparison?]

/-- A single argument is a literal just when a comparison by `<` stands on one side of a
comparison by `>` and has at most one operand; that operand is the element. -/
theorem single?_eq_some_iff {arg : Expr} {shape : Delimited} : arg.single? = some shape ↔
    ∃ outer inner : Comparison, arg = .binary outer.mark .gt outer.left outer.right ∧
      [outer.left, outer.right].findSome? (comparison? .lt) = some inner ∧
      (presentOperands inner).length ≤ 1 ∧
      shape = .single (presentOperands inner).head? := by
  constructor
  · intro h
    unfold single? at h
    split at h
    · cases h
    · rename_i outer houter
      split at h
      · cases h
      · rename_i inner hinner
        refine ⟨outer, inner, comparison?_eq_some_iff.mp houter, hinner, ?_⟩
        split at h
        · rename_i hnone
          cases h
          simp [hnone]
        · rename_i only honly
          cases h
          simp [honly]
        · cases h
  · rintro ⟨outer, inner, rfl, hinner, hlen, rfl⟩
    unfold single?
    rw [comparison?_eq_some_iff.mpr rfl]
    simp only [hinner]
    match hpresent : presentOperands inner with
    | [] => rfl
    | [only] => rfl
    | _ :: _ :: _ =>
      rw [hpresent] at hlen
      simp at hlen

theorem delimitedArgs?_range (first : Expr) (middles : List Expr) (last : Expr) :
    delimitedArgs? (first :: (middles ++ [last])) = range? first middles last := by
  cases middles with
  | nil => rfl
  | cons second rest =>
    show range? first (second :: rest ++ [last]).dropLast
      ((second :: rest ++ [last]).getLast (by simp)) = _
    rw [List.dropLast_concat, List.getLast_concat]

/-- Several arguments are a literal just when the first is a comparison by `<` and the last
one by `>`. -/
theorem delimitedArgs?_eq_some_iff {first last : Expr} {middles : List Expr}
    {shape : Delimited} : delimitedArgs? (first :: (middles ++ [last])) = some shape ↔
      ∃ opening closing : Comparison, first = .binary opening.mark .lt opening.left opening.right ∧
        last = .binary closing.mark .gt closing.left closing.right ∧
        shape = .range opening middles closing := by
  rw [delimitedArgs?_range]
  constructor
  · intro h
    unfold range? at h
    split at h
    · rename_i opening closing hopening hclosing
      cases h
      exact ⟨opening, closing, comparison?_eq_some_iff.mp hopening,
        comparison?_eq_some_iff.mp hclosing, rfl⟩
    · cases h
  · rintro ⟨opening, closing, rfl, rfl, rfl⟩
    simp [range?, comparison?]

/-- A list has at most one entry, or a first and a last one with others between them. -/
theorem ends_cases {α : Type} (xs : List α) : xs = [] ∨ (∃ only, xs = [only]) ∨
    ∃ first middles last, xs = first :: (middles ++ [last]) := by
  match xs with
  | [] => exact Or.inl rfl
  | [only] => exact Or.inr (Or.inl ⟨only, rfl⟩)
  | first :: second :: rest =>
    refine Or.inr (Or.inr ⟨first, (second :: rest).dropLast, (second :: rest).getLast (by simp), ?_⟩)
    rw [List.dropLast_concat_getLast]

/-! ### The elements of a list literal -/

theorem nodes_sublist_of_mem_children {c e : Expr} (h : c ∈ e.children) :
    c.nodes.Sublist e.nodes := by
  rw [nodes_eq e]
  refine List.Sublist.cons _ ?_
  rw [← List.flatMap_singleton nodes c]
  exact (List.singleton_sublist.mpr h).flatMap nodes

theorem elements_sublist_of_single? {arg : Expr} {shape : Delimited}
    (h : arg.single? = some shape) : (shape.elements.flatMap nodes).Sublist arg.nodes := by
  obtain ⟨outer, inner, harg, hinner, -, rfl⟩ := single?_eq_some_iff.mp h
  obtain ⟨side, hside, hlt⟩ := List.exists_of_findSome?_eq_some hinner
  have hsub : ((presentOperands inner).head?.toList).Sublist side.children := by
    have hpresent : (presentOperands inner).Sublist side.children := by
      rw [comparison?_eq_some_iff.mp hlt]
      exact List.filter_sublist
    refine List.Sublist.trans ?_ hpresent
    cases presentOperands inner <;> simp
  have hnodes : (side.children.flatMap nodes).Sublist side.nodes := by
    rw [nodes_eq side]
    exact List.sublist_cons_self _ _
  refine ((hsub.flatMap nodes).trans hnodes).trans (nodes_sublist_of_mem_children ?_)
  rw [harg]
  exact hside

/-- **The nodes of the elements of a literal are nodes of its arguments, in order.** -/
theorem elements_sublist_of_delimitedArgs? {args : List Expr} {shape : Delimited}
    (h : delimitedArgs? args = some shape) :
    (shape.elements.flatMap nodes).Sublist (args.flatMap nodes) := by
  rcases ends_cases args with rfl | ⟨only, rfl⟩ | ⟨first, middles, last, rfl⟩
  · cases h
  · rw [List.flatMap_singleton]
    exact elements_sublist_of_single? h
  · obtain ⟨opening, closing, hfirst, hlast, rfl⟩ := delimitedArgs?_eq_some_iff.mp h
    have hopening : opening.right.nodes.Sublist first.nodes :=
      nodes_sublist_of_mem_children (by rw [hfirst]; simp [children])
    have hclosing : closing.left.nodes.Sublist last.nodes :=
      nodes_sublist_of_mem_children (by rw [hlast]; simp [children])
    simp only [Delimited.elements, List.flatMap_cons, List.flatMap_append, List.flatMap_nil,
      List.append_nil]
    exact hopening.append ((List.Sublist.refl _).append hclosing)

/-! ### Shapes and marks

Neither a number nor a place is looked at when a shape is recognised, so whatever changes
the marks of a tree changes those of its elements and leaves everything else.
-/

end Expr

/-- The comparison with its marks changed by `f`. -/
def Comparison.mapMarks (f : Mark → Mark) (c : Comparison) : Comparison :=
  ⟨f c.mark, c.left.mapMarks f, c.right.mapMarks f⟩

/-- The shape with its marks changed by `f`. -/
def Delimited.mapMarks (f : Mark → Mark) : Delimited → Delimited
  | .single element => .single (element.map (Expr.mapMarks f))
  | .range opening middles closing =>
    .range (opening.mapMarks f) (middles.map (Expr.mapMarks f)) (closing.mapMarks f)

theorem Delimited.elements_mapMarks (f : Mark → Mark) (shape : Delimited) :
    (shape.mapMarks f).elements = shape.elements.map (Expr.mapMarks f) := by
  cases shape with
  | single element => cases element <;> rfl
  | range opening middles closing =>
    simp [Delimited.mapMarks, Delimited.elements, Comparison.mapMarks]

namespace Expr

variable (f : Mark → Mark)

theorem comparison?_mapMarks (op : BinaryOp) (e : Expr) :
    (e.mapMarks f).comparison? op = (e.comparison? op).map (Comparison.mapMarks f) := by
  cases e with
  | binary m found left right =>
    simp only [mapMarks, comparison?]
    split <;> rfl
  | _ => rfl

theorem presentOperands_mapMarks (c : Comparison) :
    presentOperands (c.mapMarks f) = (presentOperands c).map (mapMarks f) := by
  cases hleft : c.left.isMissing <;> cases hright : c.right.isMissing <;>
    simp [presentOperands, Comparison.mapMarks, hleft, hright]

theorem single?_mapMarks (arg : Expr) :
    (arg.mapMarks f).single? = arg.single?.map (Delimited.mapMarks f) := by
  unfold single?
  rw [comparison?_mapMarks]
  cases arg.comparison? .gt with
  | none => rfl
  | some outer =>
    have hside : [(outer.mapMarks f).left, (outer.mapMarks f).right].findSome? (comparison? .lt) =
        ([outer.left, outer.right].findSome? (comparison? .lt)).map (Comparison.mapMarks f) := by
      simp only [Comparison.mapMarks, List.findSome?_cons, List.findSome?_nil,
        comparison?_mapMarks]
      cases outer.left.comparison? .lt with
      | none => cases outer.right.comparison? .lt <;> rfl
      | some inner => rfl
    simp only [Option.map_some, hside]
    cases [outer.left, outer.right].findSome? (comparison? .lt) with
    | none => rfl
    | some inner =>
      simp only [Option.map_some, presentOperands_mapMarks]
      match presentOperands inner with
      | [] => rfl
      | [only] => rfl
      | _ :: _ :: _ => rfl

theorem range?_mapMarks (first : Expr) (middles : List Expr) (last : Expr) :
    range? (first.mapMarks f) (middles.map (mapMarks f)) (last.mapMarks f) =
      (range? first middles last).map (Delimited.mapMarks f) := by
  unfold range?
  rw [comparison?_mapMarks, comparison?_mapMarks]
  cases first.comparison? .lt with
  | none => rfl
  | some opening => cases last.comparison? .gt <;> rfl

/-- Whether arguments have the shape of a literal does not depend on marks. -/
theorem delimitedArgs?_mapMarks (args : List Expr) :
    delimitedArgs? (args.map (mapMarks f)) =
      (delimitedArgs? args).map (Delimited.mapMarks f) := by
  rcases ends_cases args with rfl | ⟨only, rfl⟩ | ⟨first, middles, last, rfl⟩
  · rfl
  · exact single?_mapMarks f only
  · rw [List.map_cons, List.map_append, List.map_singleton, delimitedArgs?_range,
      delimitedArgs?_range]
    exact range?_mapMarks f first middles last

/-- The elements of a literal do not depend on marks. -/
theorem literalElements?_bare (e : Expr) :
    e.bare.literalElements? = e.literalElements?.map (List.map bare) := by
  have hshape : e.bare.delimited? = e.delimited?.map (Delimited.mapMarks fun _ => .blank) := by
    rw [bare_eq_mapMarks]
    cases e with
    | index m receiver args =>
      rw [mapMarks, delimited?, mapMarksAll_eq, delimitedArgs?_mapMarks, delimited?]
    | _ => rfl
  unfold literalElements?
  rw [hshape, Option.map_map, Option.map_map, funext bare_eq_mapMarks]
  congr 1
  funext shape
  exact shape.elements_mapMarks _

end Expr

end ListSugar
