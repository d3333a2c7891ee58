/-
Missing operands and what becomes of them.

An expansion takes the elements of a literal out of the comparisons around them, and what
else stood there is gone.  So the missing operands of the desugared program are those of the
program, in the same order, without those that stood in an expanded literal and in none of
its elements.

The same operand may stand in a tree more than once, so this is said of the spots of a tree:
the nodes together with the way to them, as numbers of parts.  The elements of a literal are
told by the ways to them too: the right operand of the first argument, the arguments between,
and the left operand of the last one; or an operand of the `<` on either side of a `>`.
-/
import ListSugar.Proofs.MissingOperands
import ListSugar.Proofs.Pass.Sessions
import ListSugar.Proofs.Shapes

namespace ListSugar

/-! ### Spots

A tree may hold the same node twice, so a list of nodes does not say which of them is
gone.  A path does.  What is said of paths is turned back into lists of nodes by
selecting, in the order of the tree, the nodes whose path passes a test.
-/

/-- A node in a tree, and the numbers of the parts on the way to it. -/
structure Spot where
  path : List Nat
  node : Expr

/-- The spot as seen from the node above, whose part of the given number it is in. -/
def Spot.inPart (number : Nat) (spot : Spot) : Spot := ⟨number :: spot.path, spot.node⟩

namespace Expr

/-- The node that a path leads to, if there is one. -/
def at? (e : Expr) : List Nat → Option Expr
  | [] => some e
  | number :: path => e.children[number]?.bind fun part => part.at? path

/-- The spots of a tree, each node before its parts. -/
def spots (e : Expr) : List Spot :=
  ⟨[], e⟩ :: e.children.attach.zipIdx.flatMap fun part =>
    (spots part.1.val).map (Spot.inPart part.2)
termination_by sizeOf e
decreasing_by exact sizeOf_lt_of_mem_children part.1.property

/-- The spots of several trees, each with the number of its tree first. -/
def spotsOfAll (es : List Expr) : List Spot :=
  es.zipIdx.flatMap fun part => part.1.spots.map (Spot.inPart part.2)

theorem spots_eq (e : Expr) : e.spots = ⟨[], e⟩ :: spotsOfAll e.children := by
  have hparts := List.zipIdx_map (l := e.children.attach) (f := Subtype.val) (k := 0)
  rw [List.attach_map_subtype_val] at hparts
  rw [spots, spotsOfAll, hparts, List.flatMap_map]
  rfl

/-- The nodes at those spots of a tree whose path passes the test. -/
def selected (P : List Nat → Bool) (e : Expr) : List Expr :=
  (e.spots.filter fun spot => P spot.path).map Spot.node

/-- The nodes at those spots of several trees whose path passes the test. -/
def selectedAll (P : List Nat → Bool) (es : List Expr) : List Expr :=
  ((spotsOfAll es).filter fun spot => P spot.path).map Spot.node

theorem selected_eq (P : List Nat → Bool) (e : Expr) :
    e.selected P = (if P [] then [e] else []) ++ selectedAll P e.children := by
  rw [selected, spots_eq, List.filter_cons, selectedAll]
  cases P [] <;> simp

theorem selectedAll_eq (P : List Nat → Bool) (es : List Expr) :
    selectedAll P es =
      es.zipIdx.flatMap fun part => part.1.selected fun path => P (part.2 :: path) := by
  rw [selectedAll, spotsOfAll, List.filter_flatMap, List.map_flatMap]
  refine List.flatMap_congr fun part _ => ?_
  rw [List.filter_map, List.map_map]
  rfl

/-- What is done with each of several trees, whatever its number, is done with all of them. -/
theorem flatMap_zipIdx {es : List Expr} {k : Nat} {f : Expr → List Expr}
    {g : Expr × Nat → List Expr} (h : ∀ part ∈ es.zipIdx k, g part = f part.1) :
    (es.zipIdx k).flatMap g = es.flatMap f := by
  rw [List.flatMap_congr h]
  nth_rewrite 2 [← List.zipIdx_map_fst k es]
  rw [List.flatMap_map]

/-- What a test selects in several trees is what it selects in each of them, once the number of
the tree is taken off the path. -/
theorem selectedAll_of {P : List Nat → Bool} {Q : Expr → List Nat → Bool} {es : List Expr}
    (h : ∀ number part, es[number]? = some part → ∀ path, P (number :: path) = Q part path) :
    selectedAll P es = es.flatMap fun part => part.selected (Q part) := by
  rw [selectedAll_eq]
  refine flatMap_zipIdx fun part hpart => ?_
  have htest := h part.2 part.1 (List.mem_zipIdx_iff_getElem?.mp hpart)
  rw [funext htest]

theorem selected_false (e : Expr) : e.selected (fun _ => false) = [] := by
  simp [selected]

theorem selected_true (e : Expr) : e.selected (fun _ => true) = e.nodes := by
  induction e using children_induction with
  | step e ih =>
    rw [selected_eq, selectedAll_of (Q := fun _ _ => true) (by simp), nodes_eq,
      List.flatMap_congr ih]
    rfl

/-! ### Where the elements of a literal stand

The elements are computed from the comparisons around them, and the paths are computed
from the same comparisons.  For each shape it is shown that the paths lead to the
elements, and that what they select is the nodes of the elements and no others.
-/

/-- The way from an operand to itself, if it is there. -/
def presentPaths (operand : Expr) : List (List Nat) := if operand.isMissing then [] else [[]]

/-- The ways to the operands of a comparison that are there. -/
def operandPaths (c : Comparison) : List (List Nat) :=
  (presentPaths c.left).map (0 :: ·) ++ (presentPaths c.right).map (1 :: ·)

/-- The way to the element of a single argument: it is an operand of the first side that is a
comparison by `<`. -/
def singlePaths (arg : Expr) : List (List Nat) :=
  match arg.comparison? .gt with
  | none => []
  | some outer =>
    match outer.left.comparison? .lt, outer.right.comparison? .lt with
    | some inner, _ => (operandPaths inner).map (0 :: ·)
    | none, some inner => (operandPaths inner).map (1 :: ·)
    | none, none => []

/-- The ways to the elements of several arguments, of which `count` stand between the first and
the last: part number zero of an element access is the receiver, and the arguments follow. -/
def rangePaths (count : Nat) : List (List Nat) :=
  [[1, 1]] ++ ((List.range' 2 count).map (fun number => [number]) ++ [[count + 2, 0]])

/-- The ways to the elements of a literal, from the element access that it is read as. -/
def elementPaths : Expr → List (List Nat)
  | .index _ _ [only] => (singlePaths only).map (1 :: ·)
  | .index _ _ (_ :: _ :: middles) => rangePaths middles.length
  | _ => []

/-- Whether a path leads through one of the given ones. -/
def through (paths : List (List Nat)) (path : List Nat) : Bool :=
  paths.any fun q => q.isPrefixOf path

/-- The nodes of a tree at or below the ends of the given paths. -/
def nodesThrough (paths : List (List Nat)) (e : Expr) : List Expr := e.selected (through paths)

theorem nodesThrough_nil (e : Expr) : e.nodesThrough [] = [] := selected_false e

theorem nodesThrough_root (e : Expr) : e.nodesThrough [[]] = e.nodes := selected_true e

@[simp] theorem through_append (a b : List (List Nat)) (path : List Nat) :
    through (a ++ b) path = (through a path || through b path) := List.any_append

@[simp] theorem through_map_nil (number : Nat) (paths : List (List Nat)) :
    through (paths.map (number :: ·)) [] = false := by
  simp [through]

@[simp] theorem through_map_cons (number other : Nat) (paths : List (List Nat))
    (path : List Nat) : through (paths.map (number :: ·)) (other :: path) =
      (number == other && through paths path) := by
  simp only [through, List.any_map, Function.comp_def, List.isPrefixOf_cons_cons]
  cases number == other <;> simp

/-- Below an operator, what a path selects is selected in one of the operands. -/
theorem nodesThrough_binary (m : Mark) (op : BinaryOp) (left right : Expr)
    (lefts rights : List (List Nat)) :
    (binary m op left right).nodesThrough (lefts.map (0 :: ·) ++ rights.map (1 :: ·)) =
      left.nodesThrough lefts ++ right.nodesThrough rights := by
  simp [nodesThrough, selected_eq _ (binary m op left right), selectedAll_eq, children]

/-- On its own, an operand that is there is selected as a whole. -/
theorem nodesThrough_presentPaths (operand : Expr) :
    operand.nodesThrough operand.presentPaths =
      ([operand].filter fun e => !e.isMissing).flatMap nodes := by
  unfold presentPaths
  cases hmissing : operand.isMissing with
  | true => simp [hmissing, nodesThrough_nil]
  | false => simp [hmissing, nodesThrough_root]

theorem nodesThrough_operandPaths (c : Comparison) (op : BinaryOp) :
    (binary c.mark op c.left c.right).nodesThrough (operandPaths c) =
      (presentOperands c).flatMap nodes := by
  rw [operandPaths, nodesThrough_binary, nodesThrough_presentPaths, nodesThrough_presentPaths,
    ← List.flatMap_append, ← List.filter_append]
  rfl

/-- The element of a single argument is an operand of a comparison by `<`, on one side or on
the other. -/
theorem single_cases {arg : Expr} {shape : Delimited} (h : arg.single? = some shape) :
    ∃ m left right inner, arg = binary m .gt left right ∧
      shape.elements = presentOperands inner ∧
      ((left = binary inner.mark .lt inner.left inner.right ∧
          singlePaths arg = (operandPaths inner).map (0 :: ·)) ∨
        (right = binary inner.mark .lt inner.left inner.right ∧
          singlePaths arg = (operandPaths inner).map (1 :: ·))) := by
  obtain ⟨outer, inner, rfl, hinner, hlength, rfl⟩ := single?_eq_some_iff.mp h
  have helements : (presentOperands inner).head?.toList = presentOperands inner := by
    match presentOperands inner, hlength with
    | [], _ => rfl
    | [_], _ => rfl
  have houter : (binary outer.mark .gt outer.left outer.right).comparison? .gt = some outer :=
    comparison?_eq_some_iff.mpr rfl
  refine ⟨outer.mark, outer.left, outer.right, inner, rfl, helements, ?_⟩
  cases hleft : outer.left.comparison? .lt with
  | some found =>
    obtain rfl : found = inner := by simpa [hleft] using hinner
    exact Or.inl ⟨comparison?_eq_some_iff.mp hleft, by simp [singlePaths, houter, hleft]⟩
  | none =>
    have hright : outer.right.comparison? .lt = some inner := by simpa [hleft] using hinner
    exact Or.inr ⟨comparison?_eq_some_iff.mp hright, by simp [singlePaths, houter, hleft, hright]⟩

/-- The nodes of the element of a single argument are those that its path selects. -/
theorem nodesThrough_singlePaths {arg : Expr} {shape : Delimited} (h : arg.single? = some shape) :
    arg.nodesThrough (singlePaths arg) = shape.elements.flatMap nodes := by
  obtain ⟨m, left, right, inner, rfl, helements, hside⟩ := single_cases h
  rcases hside with ⟨rfl, hpaths⟩ | ⟨rfl, hpaths⟩
  · have hbinary := nodesThrough_binary m .gt (binary inner.mark .lt inner.left inner.right) right
      (operandPaths inner) []
    rw [hpaths, helements, ← nodesThrough_operandPaths inner .lt]
    simpa [nodesThrough_nil] using hbinary
  · have hbinary := nodesThrough_binary m .gt left (binary inner.mark .lt inner.left inner.right)
      [] (operandPaths inner)
    rw [hpaths, helements, ← nodesThrough_operandPaths inner .lt]
    simpa [nodesThrough_nil] using hbinary

theorem through_middles (count other : Nat) (path : List Nat) :
    through ((List.range' 2 count).map fun number => [number]) (other :: path) =
      decide (2 ≤ other ∧ other < 2 + count) := by
  rw [Bool.eq_iff_iff]
  simp [through, List.isPrefixOf_cons_cons]

/-- A path leads through an element of several arguments if it leads into the first or the last
of them in the right way, or into one between them. -/
theorem through_rangePaths (count other : Nat) (path : List Nat) :
    through (rangePaths count) (other :: path) = ((1 == other && through [[1]] path) ||
      (decide (2 ≤ other ∧ other < 2 + count) || (count + 2 == other && through [[0]] path))) := by
  have hfirst : through [[1, 1]] (other :: path) = (1 == other && through [[1]] path) :=
    through_map_cons 1 other [[1]] path
  have hlast : through [[count + 2, 0]] (other :: path) =
      (count + 2 == other && through [[0]] path) :=
    through_map_cons (count + 2) other [[0]] path
  rw [rangePaths, through_append, through_append, through_middles, hfirst, hlast]

/-- An argument between is selected as a whole. -/
theorem selected_middles (middles : List Expr) :
    ((middles.zipIdx 2).flatMap fun part =>
      part.1.selected fun path => through (rangePaths middles.length) (part.2 :: path)) =
        middles.flatMap nodes := by
  refine flatMap_zipIdx fun part hpart => ?_
  have hle := List.le_snd_of_mem_zipIdx hpart
  have hlt := List.snd_lt_add_of_mem_zipIdx hpart
  have htrue : ∀ path, through (rangePaths middles.length) (part.2 :: path) = true := by
    intro path
    rw [through_rangePaths, decide_eq_true ⟨hle, hlt⟩, Bool.true_or, Bool.or_true]
  rw [funext htrue, selected_true]

/-- Of two comparisons and the arguments between them, the paths select the right operand of
the first one, all that is between, and the left operand of the last one. -/
theorem nodesThrough_rangePaths (m : Mark) (receiver : Expr) (opening closing : Comparison)
    (middles : List Expr) :
    (index m receiver (binary opening.mark .lt opening.left opening.right ::
        (middles ++ [binary closing.mark .gt closing.left closing.right]))).nodesThrough
        (rangePaths middles.length) =
      opening.right.nodes ++ (middles.flatMap nodes ++ closing.left.nodes) := by
  have hopening : (binary opening.mark .lt opening.left opening.right).nodesThrough [[1]] =
      opening.right.nodes := by
    have hbinary := nodesThrough_binary opening.mark .lt opening.left opening.right [] [[]]
    simpa [nodesThrough_nil, nodesThrough_root] using hbinary
  have hclosing : (binary closing.mark .gt closing.left closing.right).nodesThrough [[0]] =
      closing.left.nodes := by
    have hbinary := nodesThrough_binary closing.mark .gt closing.left closing.right [[]] []
    simpa [nodesThrough_nil, nodesThrough_root] using hbinary
  have hnone : through (rangePaths middles.length) [] = false := by simp [rangePaths, through]
  have hreceiver : ∀ path, through (rangePaths middles.length) (0 :: path) = false := by
    simp [through_rangePaths]
  have hfirst : ∀ path, through (rangePaths middles.length) (1 :: path) = through [[1]] path := by
    simp [through_rangePaths]
  have hlast : ∀ path, through (rangePaths middles.length) ((2 + middles.length) :: path) =
      through [[0]] path := by
    intro path
    rw [through_rangePaths, Nat.add_comm]
    simp
  rw [nodesThrough] at hopening hclosing
  rw [nodesThrough, selected_eq, selectedAll_eq, hnone]
  simp only [children, List.zipIdx_cons, List.zipIdx_append, List.zipIdx_nil, List.flatMap_cons,
    List.flatMap_append, List.flatMap_nil, Nat.zero_add]
  rw [funext hreceiver, funext hfirst, funext hlast, selected_false]
  simp [hopening, hclosing, selected_middles]

theorem elementPaths_range (m : Mark) (receiver first : Expr) (middles : List Expr)
    (last : Expr) : elementPaths (index m receiver (first :: (middles ++ [last]))) =
      rangePaths middles.length := by
  cases middles <;> simp [elementPaths]

/-- **The nodes of the elements of a literal are those that their paths select.** -/
theorem nodesThrough_elementPaths {e : Expr} {shape : Delimited} (h : e.delimited? = some shape) :
    e.nodesThrough e.elementPaths = shape.elements.flatMap nodes := by
  cases e with
  | index m receiver args =>
    rw [delimited?] at h
    rcases ends_cases args with rfl | ⟨only, rfl⟩ | ⟨first, middles, last, rfl⟩
    · cases h
    · rw [← nodesThrough_singlePaths h, elementPaths, nodesThrough, selected_eq, selectedAll_eq]
      simp [children, selected_false, nodesThrough]
    · obtain ⟨opening, closing, rfl, rfl, rfl⟩ := delimitedArgs?_eq_some_iff.mp h
      rw [elementPaths_range, nodesThrough_rangePaths]
      simp [Delimited.elements]
  | _ => cases h

/-- Paths into a part of a node lead where they lead in the part. -/
theorem map_at?_part {e part : Expr} {number : Nat} (h : e.children[number]? = some part)
    (paths : List (List Nat)) : (paths.map (number :: ·)).map e.at? = paths.map part.at? := by
  rw [List.map_map]
  refine List.map_congr_left fun path _ => ?_
  simp [at?, h]

theorem map_at?_operandPaths (c : Comparison) (op : BinaryOp) :
    (operandPaths c).map (binary c.mark op c.left c.right).at? =
      (presentOperands c).map some := by
  have hleft : (binary c.mark op c.left c.right).children[0]? = some c.left := rfl
  have hright : (binary c.mark op c.left c.right).children[1]? = some c.right := rfl
  rw [operandPaths, List.map_append, map_at?_part hleft, map_at?_part hright]
  unfold presentPaths presentOperands
  cases hleft : c.left.isMissing <;> cases hright : c.right.isMissing <;> simp [hleft, hright, at?]

theorem map_at?_middles (m : Mark) (receiver first last : Expr) (middles : List Expr) :
    ((List.range' 2 middles.length).map fun number => [number]).map
        (index m receiver (first :: (middles ++ [last]))).at? = middles.map some := by
  refine List.ext_getElem (by simp) fun i hleft hright => ?_
  have hi : i < middles.length := by simpa using hright
  have hnumber : 2 + i = i + 1 + 1 := by omega
  simp [at?, children, hnumber, List.getElem?_append_left hi]

/-- **The paths of the elements of a literal lead to its elements, in order.** -/
theorem map_at?_elementPaths {e : Expr} {shape : Delimited} (h : e.delimited? = some shape) :
    e.elementPaths.map e.at? = shape.elements.map some := by
  cases e with
  | index m receiver args =>
    rw [delimited?] at h
    rcases ends_cases args with rfl | ⟨only, rfl⟩ | ⟨first, middles, last, rfl⟩
    · cases h
    · obtain ⟨m', left, right, inner, rfl, helements, hside⟩ := single_cases h
      have honly : (index m receiver [binary m' .gt left right]).children[1]? =
          some (binary m' .gt left right) := rfl
      rw [elementPaths, map_at?_part honly, helements, ← map_at?_operandPaths inner .lt]
      rcases hside with ⟨rfl, hpaths⟩ | ⟨rfl, hpaths⟩
      · rw [hpaths, map_at?_part rfl]
      · rw [hpaths, map_at?_part rfl]
    · obtain ⟨opening, closing, rfl, rfl, rfl⟩ := delimitedArgs?_eq_some_iff.mp h
      rw [elementPaths_range, rangePaths, List.map_append, List.map_append, map_at?_middles]
      simp [Delimited.elements, at?, children]
  | _ => cases h

end Expr

/-! ### Spots that are dropped

A path is followed until it comes to a literal that is expanded.  There it goes on through
an element, and is kept, or it does not, and is dropped.  So whether a spot is dropped is
decided at one node on the way to it.
-/

namespace Desugar

instance (v : Verdict) : Decidable v.Expands :=
  match v with
  | .expand site elements => isTrue ⟨site, elements, rfl⟩
  | .other => isFalse fun ⟨_, _, h⟩ => nomatch h
  | .access => isFalse fun ⟨_, _, h⟩ => nomatch h
  | .leave _ => isFalse fun ⟨_, _, h⟩ => nomatch h

namespace Setting

/-- The node that the path leads to is expanded: it is a literal to be expanded, and no node
on the way to it is. -/
def ExpandsAt (s : Setting) (e : Expr) (path : List Nat) (literal : Expr) : Prop :=
  e.at? path = some literal ∧ (s.judge literal).Expands ∧
    ∀ q, q <+: path → q ≠ path → ∀ above, e.at? q = some above → ¬ (s.judge above).Expands

/-- The path leads into a literal that is expanded, and to none of its elements. -/
def Drops (s : Setting) (e : Expr) (path : List Nat) : Prop :=
  ∃ above below literal, path = above ++ below ∧ s.ExpandsAt e above literal ∧
    ∀ element ∈ literal.elementPaths, ¬ element <+: below

variable {s : Setting}

theorem expandsAt_nil {e literal : Expr} :
    s.ExpandsAt e [] literal ↔ literal = e ∧ (s.judge e).Expands := by
  constructor
  · rintro ⟨hat, hexpand, -⟩
    obtain rfl : e = literal := Option.some.inj hat
    exact ⟨rfl, hexpand⟩
  · rintro ⟨rfl, hexpand⟩
    exact ⟨rfl, hexpand, fun q hq hne => absurd (List.prefix_nil.mp hq) hne⟩

/-- Nothing below a literal that is expanded is. -/
theorem ExpandsAt.eq_nil {e literal : Expr} {path : List Nat} (h : s.ExpandsAt e path literal)
    (hexpand : (s.judge e).Expands) : path = [] := by
  by_contra hne
  exact h.2.2 [] List.nil_prefix (Ne.symm hne) e rfl hexpand

theorem expandsAt_cons {e literal : Expr} (h : ¬ (s.judge e).Expands) (number : Nat)
    (path : List Nat) : s.ExpandsAt e (number :: path) literal ↔
      ∃ part, e.children[number]? = some part ∧ s.ExpandsAt part path literal := by
  have hat : ∀ q x, e.at? (number :: q) = some x ↔
      ∃ part, e.children[number]? = some part ∧ part.at? q = some x := fun q x =>
    Option.bind_eq_some_iff
  constructor
  · rintro ⟨hliteral, hexpand, habove⟩
    obtain ⟨part, hpart, hliteral⟩ := (hat path literal).mp hliteral
    refine ⟨part, hpart, hliteral, hexpand, fun q hq hne above hx => ?_⟩
    refine habove (number :: q) (List.cons_prefix_cons.mpr ⟨rfl, hq⟩) (by simpa using hne) above ?_
    exact (hat q above).mpr ⟨part, hpart, hx⟩
  · rintro ⟨part, hpart, hliteral, hexpand, habove⟩
    refine ⟨(hat path literal).mpr ⟨part, hpart, hliteral⟩, hexpand, fun q hq hne above hx => ?_⟩
    -- A node on the way is the root, which is kept, or is on the way inside the part.
    cases q with
    | nil =>
      obtain rfl : e = above := Option.some.inj hx
      exact h
    | cons first q =>
      obtain ⟨rfl, hprefix⟩ := List.cons_prefix_cons.mp hq
      obtain ⟨part', hpart', hx⟩ := (hat q above).mp hx
      obtain rfl : part = part' := Option.some.inj (hpart.symm.trans hpart')
      exact habove q hprefix (by simpa using hne) above hx

/-- At a literal that is expanded, what leads through no element is dropped. -/
theorem drops_of_expands {e : Expr} (h : (s.judge e).Expands) (path : List Nat) :
    s.Drops e path ↔ ¬ Expr.through e.elementPaths path = true := by
  have hthrough : (∀ element ∈ e.elementPaths, ¬ element <+: path) ↔
      ¬ Expr.through e.elementPaths path = true := by
    simp [Expr.through]
  rw [← hthrough]
  constructor
  · rintro ⟨above, below, literal, rfl, hat, houtside⟩
    obtain rfl := hat.eq_nil h
    obtain ⟨rfl, -⟩ := expandsAt_nil.mp hat
    exact houtside
  · intro houtside
    exact ⟨[], path, e, rfl, expandsAt_nil.mpr ⟨rfl, h⟩, houtside⟩

theorem not_drops_nil {e : Expr} (h : ¬ (s.judge e).Expands) : ¬ s.Drops e [] := by
  rintro ⟨above, below, literal, hpath, hat, -⟩
  obtain ⟨rfl, rfl⟩ := List.append_eq_nil_iff.mp hpath.symm
  exact h (expandsAt_nil.mp hat).2

/-- Below any other node, what is dropped is dropped in one of the parts. -/
theorem drops_cons {e : Expr} (h : ¬ (s.judge e).Expands) (number : Nat) (path : List Nat) :
    s.Drops e (number :: path) ↔ ∃ part, e.children[number]? = some part ∧ s.Drops part path := by
  constructor
  · rintro ⟨above, below, literal, hpath, hat, houtside⟩
    cases above with
    | nil => exact absurd (expandsAt_nil.mp hat).2 h
    | cons first above =>
      obtain ⟨rfl, rfl⟩ := List.cons.inj hpath
      obtain ⟨part, hpart, hat⟩ := (expandsAt_cons h _ _).mp hat
      exact ⟨part, hpart, above, below, literal, rfl, hat, houtside⟩
  · rintro ⟨part, hpart, above, below, literal, rfl, hat, houtside⟩
    exact ⟨number :: above, below, literal, rfl, (expandsAt_cons h _ _).mpr ⟨part, hpart, hat⟩,
      houtside⟩

/-- Whether a spot is dropped is told on the way to it. -/
def decideDrops (s : Setting) : ∀ (path : List Nat) (e : Expr), Decidable (s.Drops e path)
  | path, e =>
    if h : (s.judge e).Expands then decidable_of_iff _ (drops_of_expands h path).symm
    else
      match path with
      | [] => isFalse (not_drops_nil h)
      | number :: path =>
        match hpart : e.children[number]? with
        | none => isFalse fun hdrops => by
            obtain ⟨part, hsome, -⟩ := (drops_cons h number path).mp hdrops
            rw [hpart] at hsome
            cases hsome
        | some part =>
          have := s.decideDrops path part
          decidable_of_iff (s.Drops part path) (by simp [drops_cons h, hpart])

instance (e : Expr) (path : List Nat) : Decidable (s.Drops e path) := s.decideDrops path e

/-- The nodes of a tree at the spots that are not dropped. -/
def remaining (s : Setting) (e : Expr) : List Expr := e.selected fun path => ¬ s.Drops e path

/-- Of a literal that is expanded, its elements remain. -/
theorem remaining_of_expand {e : Expr} {site : Site} {elements : List Expr}
    (h : s.judge e = .expand site elements) : s.remaining e = elements.flatMap Expr.nodes := by
  obtain ⟨m, receiver, args, shape, rfl, hshape, rfl, -⟩ := judge_eq_expand h
  have hexpand : (s.judge (.index m receiver args)).Expands := ⟨_, _, h⟩
  rw [← Expr.nodesThrough_elementPaths (e := .index m receiver args) hshape, remaining,
    Expr.nodesThrough]
  congr 1
  funext path
  simp [drops_of_expands hexpand]

/-- Of any other node, the node itself remains and what remains of its parts. -/
theorem remaining_of_not_expands {e : Expr} (h : ¬ (s.judge e).Expands) :
    s.remaining e = e :: e.children.flatMap s.remaining := by
  have hparts : ∀ number part, e.children[number]? = some part → ∀ path,
      decide (¬ s.Drops e (number :: path)) = decide (¬ s.Drops part path) := by
    intro number part hpart path
    simp [drops_cons h, hpart]
  rw [remaining, Expr.selected_eq, Expr.selectedAll_of hparts,
    if_pos (decide_eq_true (not_drops_nil h))]
  rfl

/-! ### Missing operands of a walk

A walk makes a construction and hands on the elements of its literal, and neither adds a
missing operand or changes the order.  So the missing operands that are left are those at
the spots that are kept.
-/

/-- A missing operand is kept as it is, and nothing else becomes one. -/
theorem filter_isMissing_expr {e : Expr} (h : ¬ (s.judge e).Expands) (n : Nat) :
    [(s.expr e n).value].filter Expr.isMissing = [e].filter Expr.isMissing := by
  cases e with
  | missing m => rw [expr_missing]
  | index m receiver args => simp [s.expr_index h, Expr.isMissing]
  | _ =>
    simp [expr_literal, expr_ident, expr_paren, expr_unary, expr_binary, expr_member, expr_call,
      expr_new, Expr.isMissing]

theorem isMissing_construct (container : String) (ty : Ty) (m : Mark) (elements : List Expr) :
    (Expr.construct container ty m elements).isMissing = false := by
  cases elements <;> rfl

theorem missing_exprs_of : ∀ {es : List Expr}, (∀ e ∈ es, ∀ n,
      (s.expr e n).value.nodes.filter Expr.isMissing = (s.remaining e).filter Expr.isMissing) →
    ∀ n, ((s.exprs es n).value.flatMap Expr.nodes).filter Expr.isMissing =
      (es.flatMap s.remaining).filter Expr.isMissing := by
  intro es
  induction es with
  | nil =>
    intro _ n
    rw [exprs_nil, List.flatMap_nil, List.flatMap_nil]
  | cons e rest ih =>
    intro h n
    have hrest := ih (fun c hc => h c (by simp [hc])) (s.expr e n).nextId
    simp only [exprs_cons, List.flatMap_cons, List.filter_append, h e (by simp) n, hrest]

/-- **The missing operands of an expanded tree are those of the tree that are not dropped, in
order.** -/
theorem missing_expr (e : Expr) : ∀ n,
    (s.expr e n).value.nodes.filter Expr.isMissing = (s.remaining e).filter Expr.isMissing := by
  induction e using Expr.children_induction with
  | step e ih =>
    intro n
    by_cases hexpand : (s.judge e).Expands
    · -- The construction around the elements is a new node, and it is not missing.
      obtain ⟨site, elements, hj⟩ := hexpand
      rw [s.expr_of_expand hj, remaining_of_expand hj, Expr.nodes_eq, children_construct,
        List.filter_cons_of_neg (by simp [isMissing_construct])]
    · rw [remaining_of_not_expands hexpand, Expr.nodes_eq, (kept hexpand n).children,
        ← List.singleton_append, ← List.singleton_append (l := e.children.flatMap _),
        List.filter_append, List.filter_append, filter_isMissing_expr hexpand,
        missing_exprs_of ih]

theorem missing_exprs (s : Setting) (es : List Expr) (n : Nat) :
    ((s.exprs es n).value.flatMap Expr.nodes).filter Expr.isMissing =
      (es.flatMap s.remaining).filter Expr.isMissing :=
  missing_exprs_of (fun e _ => missing_expr e) n

/-- The path leads to a spot of one of the trees, which is dropped there. -/
def DropsIn (s : Setting) (es : List Expr) (path : List Nat) : Prop :=
  ∃ number rest e, path = number :: rest ∧ es[number]? = some e ∧ s.Drops e rest

theorem dropsIn_cons {es : List Expr} {number : Nat} {e : Expr} (h : es[number]? = some e)
    (path : List Nat) : s.DropsIn es (number :: path) ↔ s.Drops e path := by
  simp [DropsIn, h]

instance (es : List Expr) (path : List Nat) : Decidable (s.DropsIn es path) :=
  match path with
  | [] => isFalse fun ⟨_, _, _, h, _⟩ => nomatch h
  | number :: path =>
    match h : es[number]? with
    | none => isFalse fun ⟨_, _, _, hpath, he, _⟩ => by
        cases hpath
        rw [h] at he
        cases he
    | some e => decidable_of_iff (s.Drops e path) (dropsIn_cons h path).symm

end Setting

end Desugar

/-! ### Diagnostics -/

/-- The diagnostic of an operand that is missing at the spot. -/
def Spot.diagnostic (spot : Spot) : Diagnostic := ⟨.missingOperand, spot.node.pos⟩

namespace Program

/-- The spots of a program; the first number of a path is that of the expression. -/
def spots (p : Program) : List Spot := Expr.spotsOfAll p.roots

theorem map_node_spots (p : Program) : p.spots.map Spot.node = p.nodes := by
  have hall : p.spots.map Spot.node = Expr.selectedAll (fun _ => true) p.roots := by
    rw [Expr.selectedAll, List.filter_true]
    rfl
  rw [hall, Expr.selectedAll_of (Q := fun _ _ => true) (by simp), nodes_eq_flatMap,
    funext Expr.selected_true]

/-- The diagnostics of missing operands are those of the missing nodes, in order. -/
theorem filter_expectsExpression (p : Program) :
    p.diagnostics.filter Diagnostic.expectsExpression =
      (p.nodes.filter Expr.isMissing).map fun n => ⟨.missingOperand, n.pos⟩ := by
  rw [diagnostics, List.filter_filterMap, ← List.filterMap_eq_map, List.filterMap_filter]
  refine List.filterMap_congr fun n _ => ?_
  cases n with
  | missing m => rfl
  | new m ty args init =>
    by_cases hresolved : ty.isResolved = true
    · simp [Diagnostic.ofNode, hresolved, Expr.isMissing]
    · simp [Diagnostic.ofNode, hresolved, Expr.isMissing,
        Diagnostic.expectsExpression_unresolvedType]
  | _ => rfl

end Program

namespace Desugar.Session

open Setting

/-- The missing nodes of the desugared program are those at the spots that are not dropped. -/
theorem missing_program (session : Session) (p : Program) :
    (session.program p).1.1.nodes.filter Expr.isMissing =
      ((p.spots.filter fun spot => spot.node.isMissing).filter fun spot =>
        ¬ session.setting.DropsIn p.roots spot.path).map Spot.node := by
  obtain ⟨p', visits, hprogram, hwalk, -⟩ := exprs_program session p
  have hmissing := missing_exprs session.setting p.roots (max session.nextId p.nextId)
  have hremaining : p.roots.flatMap session.setting.remaining =
      Expr.selectedAll (fun path => ¬ session.setting.DropsIn p.roots path) p.roots := by
    rw [Expr.selectedAll_of fun number e he path =>
      decide_eq_decide.mpr (not_congr (dropsIn_cons he path))]
    rfl
  rw [hwalk, hremaining, Expr.selectedAll] at hmissing
  rw [hprogram, Program.nodes_eq_flatMap, hmissing, List.filter_map, List.filter_filter,
    List.filter_filter]
  exact congrArg (List.map Spot.node) (List.filter_congr fun spot _ => Bool.and_comm _ _)

/-- **Desugaring drops missing operands and never adds or moves one.**  The diagnostics of
missing operands of a program are those of its spots with a missing node.  Those of the
desugared program are the same, in the same order and place, without the spots that lie in an
expanded literal and in none of its elements, where the elements are those that the expansion
takes. -/
theorem program_drops_missing (session : Session) (p : Program) :
    let p' := (session.program p).1.1
    let missing := p.spots.filter fun spot => spot.node.isMissing
    let expected := p.diagnostics.filter Diagnostic.expectsExpression
    let expected' := p'.diagnostics.filter Diagnostic.expectsExpression
    expected'.Sublist expected ∧ expected = missing.map Spot.diagnostic ∧
      expected' = (missing.filter fun spot =>
        ¬ session.setting.DropsIn p.roots spot.path).map Spot.diagnostic ∧
      ∀ literal site elements, session.setting.judge literal = .expand site elements →
        literal.elementPaths.map literal.at? = elements.map some := by
  intro p' missing expected expected'
  have hexpected : expected = missing.map Spot.diagnostic := by
    have hnodes := Program.filter_expectsExpression p
    rw [← p.map_node_spots, List.filter_map, List.map_map] at hnodes
    exact hnodes
  have hexpected' : expected' = (missing.filter fun spot =>
      ¬ session.setting.DropsIn p.roots spot.path).map Spot.diagnostic := by
    have hnodes := Program.filter_expectsExpression p'
    rw [missing_program, List.map_map] at hnodes
    exact hnodes
  refine ⟨?_, hexpected, hexpected', fun literal site elements hj => ?_⟩
  · rw [hexpected, hexpected']
    exact List.filter_sublist.map _
  · obtain ⟨m, receiver, args, shape, rfl, hshape, rfl, -⟩ := judge_eq_expand hj
    exact Expr.map_at?_elementPaths (e := .index m receiver args) hshape

/-- Of five missing operands, the two that are elements stay. -/
example : (Program.ofText "x = [<, 2, >];").map (fun p =>
    (p.spots.filter fun spot => spot.node.isMissing).map fun spot =>
      (spot.path, decide ((p.setting ⟨"List", .proceed⟩).DropsIn p.roots spot.path))) =
    .ok [([1, 0], true), ([1, 1, 0], true), ([1, 1, 1], false), ([1, 3, 0], false),
      ([1, 3, 1], true)] := by
  decide +kernel

end Desugar.Session

end ListSugar
