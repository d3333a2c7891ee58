/-
The model of a program implements lexical scoping.

What a name means is said here without frames.  The declarations in sight of an expression
are a list, the nearest first, and a name means what the first one of that name says, even
where it says that the type is unknown.  A declaration adds to the list for the statements
after it in the same block; a block, a branch and a body see the declarations around them,
and what they declare is gone with them.

The walk that builds the model works otherwise: it enters and leaves frames, and writes
down a row for each node on the way.  Its frames, one after the other, are the declarations
in sight at every point of the walk, and no two of its rows are for the same node, so both
give every node the same type.
-/
import ListSugar.Proofs.Typing.Rows

namespace ListSugar

/-- Declared names with their types, the nearest declaration first. -/
abbrev Declarations := List (String × Ty)

namespace Expr

mutual

/-- The type of an expression that sees the given declarations. -/
def typeIn (sight : Declarations) : Expr → Ty
  | .missing _ => .unknown
  | .literal _ value => Typing.literal value
  | .ident _ name => (sight.lookup name).getD .unknown
  | .paren _ inner => inner.typeIn sight
  | .unary _ op operand => Typing.unary op (operand.typeIn sight)
  | .binary _ op left right =>
    if left.isMissing || right.isMissing then .unknown
    else Typing.binary op (left.typeIn sight) (right.typeIn sight)
  | .member _ receiver name => Typing.member (receiver.typeIn sight) name
  | .call _ callee args => Typing.call callee args
  | .index _ receiver args => Typing.index (receiver.typeIn sight) (typesIn sight args)
  | .new _ ty _ _ => .ofTypeExpr ty

/-- The types of several expressions. -/
def typesIn (sight : Declarations) : List Expr → List Ty
  | [] => []
  | e :: rest => e.typeIn sight :: typesIn sight rest

end

theorem typesIn_eq (sight : Declarations) (es : List Expr) :
    typesIn sight es = es.map (typeIn sight) := by
  induction es with
  | nil => rfl
  | cons e rest ih => rw [typesIn, ih, List.map_cons]

end Expr

namespace Stmt

/-- The declarations that the statement after this one sees in the same block.  An
initializer is typed before its name is declared. -/
def declaring (sight : Declarations) : Stmt → Declarations
  | .declare ty name init _ =>
    (name, Typing.declaredTy ty ((init.map (Expr.typeIn sight)).getD .unknown)) :: sight
  | _ => sight

mutual

/-- The expressions of a statement in the order in which they are written, each with the
declarations that it sees. -/
def sighted (sight : Declarations) : Stmt → List (Declarations × Expr)
  | .declare _ _ init _ => init.toList.map (sight, ·)
  | .assign target value => [(sight, target), (sight, value)]
  | .expr value => [(sight, value)]
  | .block stmts => sightedAll sight stmts
  | .branch cond thenBranch elseBranch =>
    (sight, cond) :: (thenBranch.sighted sight ++ sightedElse sight elseBranch)
  | .foreach ty name iter body =>
    (sight, iter) ::
      body.sighted ((name, Typing.declaredTy ty (iter.typeIn sight).element) :: sight)

/-- The expressions of several statements, each with the declarations that it sees. -/
def sightedAll (sight : Declarations) : List Stmt → List (Declarations × Expr)
  | [] => []
  | s :: rest => s.sighted sight ++ sightedAll (s.declaring sight) rest

/-- The expressions of an alternative, each with the declarations that it sees. -/
def sightedElse (sight : Declarations) : Option Stmt → List (Declarations × Expr)
  | none => []
  | some s => s.sighted sight

end

end Stmt

/-! ### Frames and declarations

A frame is a list with the latest declaration in front, and the innermost frame comes
first.  So the frames one after the other are the declarations in sight, and a frame that
is left takes away just those that were made in it.
-/

namespace Scope

/-- The declarations of all frames, the innermost frame first. -/
def sight (scope : Scope) : Declarations := scope.frames.flatten

@[simp] theorem sight_enter (scope : Scope) : scope.enter.sight = scope.sight := rfl

@[simp] theorem sight_declare (scope : Scope) (name : String) (ty : Ty) :
    (scope.declare name ty).sight = (name, ty) :: scope.sight := rfl

theorem findSome?_lookup (name : String) (frames : List Frame) :
    frames.findSome? (List.lookup name) = frames.flatten.lookup name := by
  induction frames with
  | nil => rfl
  | cons frame rest ih =>
    rw [List.findSome?_cons, List.flatten_cons, List.lookup_append, ih]
    cases frame.lookup name <;> rfl

/-- **The innermost frame that declares a name gives its nearest declaration.** -/
theorem lookup_eq (scope : Scope) (name : String) :
    scope.lookup name = (scope.sight.lookup name).getD .unknown := by
  rw [lookup, findSome?_lookup]
  rfl

end Scope

namespace Typing

open Stmt

/-- **The type of an expression in a scope is its type under the declarations in sight.** -/
theorem infer_result (scope : Scope) (e : Expr) :
    (infer scope e).result = e.typeIn scope.sight := by
  induction e using Expr.children_induction with
  | step e ih =>
    cases e with
    | missing m => rfl
    | literal m value => rfl
    | ident m name => exact scope.lookup_eq name
    | paren m inner => exact ih inner (by simp [Expr.children])
    | unary m op operand =>
      simp only [infer, conclude, Expr.typeIn, ih operand (by simp [Expr.children])]
    | binary m op left right =>
      simp only [infer, conclude, Expr.typeIn, ih left (by simp [Expr.children]),
        ih right (by simp [Expr.children])]
    | member m receiver name =>
      simp only [infer, conclude, Expr.typeIn, ih receiver (by simp [Expr.children])]
    | call m callee args => rfl
    | index m receiver args =>
      have hargs : (inferAll scope args).result = Expr.typesIn scope.sight args := by
        rw [inferAll_result, Expr.typesIn_eq]
        exact List.map_congr_left fun c hc => ih c (by simp [Expr.children, hc])
      simp only [infer, conclude, Expr.typeIn, hargs, ih receiver (by simp [Expr.children])]
    | new m ty args init => rfl

/-- After a statement the frames hold the declarations that the next statement sees. -/
theorem sight_walk (scope : Scope) (st : Stmt) :
    (walk scope st).result.sight = st.declaring scope.sight := by
  rw [walk_result]
  cases st with
  | declare ty name init line =>
    cases init with
    | none => rfl
    | some e => simp [declaring, initTy, infer_result]
  | _ => rfl

theorem sightedAll_of : ∀ {stmts : List Stmt}, (∀ p ∈ stmts, ∀ scope,
      p.sighted scope.sight = (p.scopedRoots scope).map fun r => (r.1.sight, r.2)) →
    ∀ scope, sightedAll scope.sight stmts =
      (scopedRootsOfAll scope stmts).map fun r => (r.1.sight, r.2) := by
  intro stmts
  induction stmts with
  | nil =>
    intro _ scope
    rfl
  | cons first rest ih =>
    intro h scope
    rw [sightedAll, scopedRootsOfAll, List.map_append, h first (by simp) scope, ← sight_walk,
      ih fun p hp => h p (by simp [hp])]

/-- **At every expression the frames of the walk hold the declarations in sight.** -/
theorem sighted_eq (st : Stmt) : ∀ scope,
    st.sighted scope.sight = (st.scopedRoots scope).map fun r => (r.1.sight, r.2) := by
  induction st using parts_induction with
  | step st ih =>
    intro scope
    cases st with
    | declare ty name init line => cases init <;> rfl
    | assign target value => rfl
    | expr value => rfl
    | block stmts =>
      exact sightedAll_of (fun p hp => ih p (by simpa [parts] using hp)) scope.enter
    | branch cond thenBranch elseBranch =>
      have hthen := ih thenBranch (by simp [parts]) scope.enter
      cases elseBranch with
      | none =>
        rw [Scope.sight_enter] at hthen
        simp [sighted, sightedElse, scopedRoots, scopedRootsOfElse, hthen]
      | some other =>
        have helse := ih other (by simp [parts]) scope.enter
        rw [Scope.sight_enter] at hthen helse
        simp [sighted, sightedElse, scopedRoots, scopedRootsOfElse, hthen, helse]
    | foreach ty name iter body =>
      have hbody := ih body (by simp [parts])
        (scope.enter.declare name (declaredTy ty (infer scope iter).result.element))
      rw [Scope.sight_declare, Scope.sight_enter, infer_result] at hbody
      simp [sighted, scopedRoots, infer_result, hbody]

theorem sightedAll_eq (stmts : List Stmt) (scope : Scope) :
    sightedAll scope.sight stmts = (scopedRootsOfAll scope stmts).map fun r => (r.1.sight, r.2) :=
  sightedAll_of (fun p _ => sighted_eq p) scope

end Typing

/-! ### Every node has a type

The table of the model is keyed by numbers, and a row for a number that is there already
would replace another one.  With unique numbers no row is lost, so counting the rows
counts the nodes.
-/

namespace Model

open Typing

theorem mem_foldl_insert (id : Nat) (rows : List Row) : ∀ types : Std.TreeMap Nat Ty,
    id ∈ rows.foldl (fun types row => types.insert row.1 row.2) types ↔
      id ∈ types ∨ id ∈ rows.map Prod.fst := by
  induction rows with
  | nil =>
    intro types
    simp
  | cons row rest ih =>
    intro types
    rw [List.foldl_cons, ih, Std.TreeMap.mem_insert, List.map_cons, List.mem_cons]
    simp only [Std.LawfulEqCmp.compare_eq_iff_eq, eq_comm (a := row.1)]
    exact or_assoc.trans or_left_comm

/-- Rows for different numbers that are not yet there are all kept. -/
theorem size_foldl_insert (rows : List Row) : (rows.map Prod.fst).Nodup →
    ∀ types : Std.TreeMap Nat Ty, (∀ id ∈ rows.map Prod.fst, id ∉ types) →
      (rows.foldl (fun types row => types.insert row.1 row.2) types).size =
        types.size + rows.length := by
  induction rows with
  | nil =>
    intro _ types _
    rfl
  | cons row rest ih =>
    intro hnodup types hnew
    obtain ⟨hrow, hrest⟩ := List.nodup_cons.mp hnodup
    have hfresh : row.1 ∉ types := hnew row.1 (by simp)
    have hnext : ∀ id ∈ rest.map Prod.fst, id ∉ types.insert row.1 row.2 := by
      intro id hid hmem
      rcases Std.TreeMap.mem_insert.mp hmem with heq | hold
      · have : row.1 = id := by simpa using heq
        exact hrow (this ▸ hid)
      · exact hnew id (List.mem_cons_of_mem _ hid) hold
    rw [List.foldl_cons, ih hrest _ hnext, Std.TreeMap.size_insert,
      if_neg (by simpa using hfresh), List.length_cons]
    omega

/-- **Where numbers are unique, the model has a type for every node and no other.** -/
theorem size_ofProgram {p : Program} (hnodup : (p.nodes.map Expr.id).Nodup) :
    (ofProgram p).size = p.nodes.length := by
  have hids := walkAll_ids p.stmts .empty
  have hsize : (ofProgram p).size = 0 + (walkAll .empty p.stmts).rows.length :=
    size_foldl_insert _ (hids.nodup_iff.mpr hnodup) ∅ (by simp)
  have hlength := hids.length_eq
  rw [List.length_map, List.length_map] at hlength
  rw [hsize, hlength, Nat.zero_add]
  rfl

theorem mem_types_ofProgram {p : Program} {n : Expr} (hn : n ∈ p.nodes) :
    n.id ∈ (ofProgram p).types := by
  refine (mem_foldl_insert n.id _ ∅).mpr (Or.inr ?_)
  exact (walkAll_ids p.stmts .empty).mem_iff.mpr (List.mem_map.mpr ⟨n, hn, rfl⟩)

end Model

/-- **The model implements lexical scoping.**  Where no two nodes share a number it has a type
for every node, and that is the type of the node under the declarations in sight of the
expression that it stands in.  A statement changes the innermost frame at most, and leaves as
many frames as there were. -/
theorem typeOf_eq_typeIn {p : Program} (hnodup : (p.nodes.map Expr.id).Nodup) :
    (Model.ofProgram p).size = p.nodes.length ∧
      (Stmt.sightedAll [] p.stmts).map Prod.snd = p.roots ∧
      (∀ r ∈ Stmt.sightedAll [] p.stmts, ∀ n ∈ r.2.nodes,
        n.id ∈ (Model.ofProgram p).types ∧ (Model.ofProgram p).typeOf n = n.typeIn r.1) ∧
      ∀ scope st, (Typing.walk scope st).result.frames.length = scope.frames.length ∧
        (Typing.walk scope st).result.frames.tail = scope.frames.tail := by
  have hsighted := Typing.sightedAll_eq p.stmts .empty
  have hroots : (Stmt.sightedAll [] p.stmts).map Prod.snd = p.roots := by
    rw [show ([] : Declarations) = Scope.empty.sight from rfl, hsighted, List.map_map,
      Program.roots, Stmt.roots_eq_map_snd p.stmts .empty]
    rfl
  refine ⟨Model.size_ofProgram hnodup, hroots, ?_, ?_⟩
  · intro r hr n hn
    have hnode : n ∈ p.nodes := by
      rw [Program.nodes_eq_flatMap, ← hroots, List.flatMap_map, List.mem_flatMap]
      exact ⟨r, hr, hn⟩
    refine ⟨Model.mem_types_ofProgram hnode, ?_⟩
    rw [show ([] : Declarations) = Scope.empty.sight from rfl, hsighted] at hr
    obtain ⟨r', hr', rfl⟩ := List.mem_map.mp hr
    rw [Model.typeOf_eq hnodup hr' hn, Typing.infer_result]
  · intro scope st
    have houter := Typing.walk_outer st scope
    exact ⟨by simp [Scope.frames, houter], houter⟩

/-- A name that stands for an integer is used inside a block that declares it again with an
unknown type, after that block, in a loop over a string that declares it for its variable, and
after the loop. -/
theorem typeOf_eq_typeIn_shadowed : ∃ (p : Program) (uses : List Expr),
    (p.nodes.map Expr.id).Nodup ∧ uses.map Expr.id = [2, 3, 5, 6] ∧
      (∀ n ∈ uses, n ∈ p.nodes) ∧
      uses.map (Model.ofProgram p).typeOf = [.unknown, .int, .char, .int] := by
  let use : Nat → Expr := fun id => .ident ⟨id, .start⟩ "x"
  let p : Program := ⟨[.declare none "x" (some (.literal ⟨0, .start⟩ (.int 1))) 1,
    .block [.declare none "x" (some (.literal ⟨1, .start⟩ .null)) 1, .expr (use 2)],
    .expr (use 3),
    .foreach none "x" (.literal ⟨4, .start⟩ (.str "s")) (.expr (use 5)),
    .expr (use 6)], 7⟩
  have hnodup : (p.nodes.map Expr.id).Nodup := by decide
  have htypes := (typeOf_eq_typeIn hnodup).2.2.1
  have hsighted : Stmt.sightedAll [] p.stmts =
      [([], .literal ⟨0, .start⟩ (.int 1)),
        ([("x", .int)], .literal ⟨1, .start⟩ .null),
        ([("x", .unknown), ("x", .int)], use 2),
        ([("x", .int)], use 3),
        ([("x", .int)], .literal ⟨4, .start⟩ (.str "s")),
        ([("x", .char), ("x", .int)], use 5),
        ([("x", .int)], use 6)] := rfl
  have huse : ∀ sight id, (sight, use id) ∈ Stmt.sightedAll [] p.stmts →
      (Model.ofProgram p).typeOf (use id) = (sight.lookup "x").getD .unknown :=
    fun sight id h => (htypes _ h (use id) (Expr.self_mem_nodes _)).2
  rw [hsighted] at huse
  refine ⟨p, [use 2, use 3, use 5, use 6], hnodup, rfl, ?_, ?_⟩
  · simp [p, use, Program.nodes, Program.roots, Stmt.rootsOfAll, Stmt.roots, Expr.nodesOfAll,
      Expr.nodes]
  · simp only [List.map_cons, List.map_nil]
    rw [huse [("x", .unknown), ("x", .int)] 2 (by simp), huse [("x", .int)] 3 (by simp),
      huse [("x", .char), ("x", .int)] 5 (by simp), huse [("x", .int)] 6 (by simp)]
    rfl

end ListSugar
