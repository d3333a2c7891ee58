/-
The rows of a model are the nodes of the program.

The scope of an expression does not change inside it, so the rows of an expression are
its nodes, each with the type that it has in that scope.  A block gives back the scope
it was entered with, so only a declaration changes what the next statement sees.
`scopedRoots` lists the expressions of a program with the scopes they stand in, and the
rows of the program are the rows of these, in order.

Where no two nodes share a number, the model therefore gives every node the type that it
has in its scope.
-/
import Mathlib.Data.List.Nodup
import Mathlib.Data.List.Perm.Basic
import ListSugar.Proofs.Trees
import ListSugar.Typing.Model

namespace ListSugar

namespace Typing

/-! ### The rows of an expression

The walk writes down a node after its parts, and a call in an order of its own.  No type
depends on that order, so the rows are compared with the nodes up to a permutation.
-/

theorem inferAll_rows (scope : Scope) (es : List Expr) :
    (inferAll scope es).rows = es.flatMap fun e => (infer scope e).rows := by
  induction es with
  | nil => rfl
  | cons e rest ih => rw [inferAll, List.flatMap_cons, ← ih]

theorem inferAll_result (scope : Scope) (es : List Expr) :
    (inferAll scope es).result = es.map fun e => (infer scope e).result := by
  induction es with
  | nil => rfl
  | cons e rest ih => rw [inferAll, List.map_cons, ← ih]

theorem inferPart_eq (scope : Scope) (part : Option (List Expr)) :
    inferPart scope part = (part.getD []).flatMap fun e => (infer scope e).rows := by
  cases part with
  | none => rfl
  | some es => exact inferAll_rows scope es

/-- The row of a node in a scope. -/
def rowOf (scope : Scope) (n : Expr) : Row := (n.id, (infer scope n).result)

theorem conclude_rows_perm (m : Mark) (rows : List Row) (ty : Ty) :
    (conclude m rows ty).rows.Perm ((m.id, ty) :: rows) :=
  List.perm_append_singleton _ _

/-- A node is written down after its parts; only a call takes them in another order. -/
theorem infer_rows (scope : Scope) (e : Expr) : (infer scope e).rows.Perm
    (rowOf scope e :: e.children.flatMap fun c => (infer scope c).rows) := by
  cases e with
  | call m callee args =>
    refine (conclude_rows_perm _ _ _).trans (.cons _ ?_)
    rw [inferAll_rows]
    exact List.perm_append_comm
  | binary m op left right =>
    refine (conclude_rows_perm _ _ _).trans (.of_eq ?_)
    simp [Expr.children, rowOf, Expr.id, Expr.mark, infer, conclude]
  | index m receiver args =>
    refine (conclude_rows_perm _ _ _).trans (.of_eq ?_)
    simp [Expr.children, rowOf, Expr.id, Expr.mark, infer, conclude, inferAll_rows]
  | new m ty args init =>
    refine (conclude_rows_perm _ _ _).trans (.of_eq ?_)
    simp [Expr.children, rowOf, Expr.id, Expr.mark, infer, conclude, inferPart_eq]
  | _ => simp [infer, conclude, Expr.children, rowOf, Expr.id, Expr.mark]

/-- **The rows of an expression are its nodes, each with its type.** -/
theorem infer_rows_perm (scope : Scope) (e : Expr) :
    (infer scope e).rows.Perm (e.nodes.map (rowOf scope)) := by
  induction e using Expr.children_induction with
  | step e ih =>
    rw [Expr.nodes_eq, List.map_cons, List.map_flatMap]
    refine (infer_rows scope e).trans (.cons _ ?_)
    exact List.Perm.flatMap_left _ ih

/-! ### Scopes

A statement may declare a name in the innermost frame.  The frames around that one come
out as they went in, so leaving a block leads back to the scope in which it was entered.
-/

theorem leave_of_outer {scope inner : Scope} (h : inner.outer = scope.frames) :
    inner.leave = scope := by
  unfold Scope.leave
  rw [h]
  rfl

theorem walkAll_outer_of : ∀ {stmts : List Stmt},
    (∀ p ∈ stmts, ∀ scope, (walk scope p).result.outer = scope.outer) →
    ∀ scope, (walkAll scope stmts).result.outer = scope.outer := by
  intro stmts
  induction stmts with
  | nil =>
    intro _ scope
    rfl
  | cons first rest ih =>
    intro h scope
    rw [walkAll]
    exact (ih (fun p hp => h p (by simp [hp])) _).trans (h first (by simp) scope)

/-- A block gives back the scope it was entered with. -/
theorem inBlock_result {scope : Scope} {body : Scope → Inferred Scope}
    (h : (body scope.enter).result.outer = scope.enter.outer) :
    (inBlock scope body).result = scope :=
  leave_of_outer h

/-- **A statement leaves the frames around the innermost one alone.** -/
theorem walk_outer (st : Stmt) : ∀ scope, (walk scope st).result.outer = scope.outer := by
  induction st using Stmt.parts_induction with
  | step st ih =>
    intro scope
    cases st with
    | declare ty name init line =>
      unfold walk
      rfl
    | assign target value =>
      unfold walk
      rfl
    | expr value =>
      unfold walk
      rfl
    | block stmts =>
      unfold walk
      rw [inBlock_result]
      exact walkAll_outer_of (fun p hp => ih p (by simpa [Stmt.parts] using hp)) scope.enter
    | branch cond thenBranch elseBranch =>
      have hthen : (inBlock scope fun inside => walk inside thenBranch).result = scope :=
        inBlock_result (ih thenBranch (by simp [Stmt.parts]) scope.enter)
      cases elseBranch with
      | none =>
        unfold walk
        simp only [hthen]
      | some other =>
        have helse : (inBlock scope fun inside => walk inside other).result = scope :=
          inBlock_result (ih other (by simp [Stmt.parts]) scope.enter)
        unfold walk
        simp only [hthen, helse]
    | foreach ty name iter body =>
      unfold walk
      dsimp only
      rw [inBlock_result]
      exact ih body (by simp [Stmt.parts]) _

theorem walkAll_outer (stmts : List Stmt) (scope : Scope) :
    (walkAll scope stmts).result.outer = scope.outer :=
  walkAll_outer_of (fun p _ => walk_outer p) scope

theorem inBlock_walk (scope inside : Scope) (st : Stmt) (h : inside.outer = scope.frames) :
    (walk inside st).result.leave = scope :=
  leave_of_outer ((walk_outer st inside).trans h)

/-! ### One statement -/

/-- The type of a declared variable: the written one, or else that of what it stands for. -/
def declaredTy (ty : Option TypeExpr) (otherwise : Ty) : Ty :=
  match ty with
  | some ty => .ofTypeExpr ty
  | none => otherwise

/-- The type of an initializer, unknown if there is none. -/
def initTy (scope : Scope) (init : Option Expr) : Ty :=
  (init.map fun e => (infer scope e).result).getD .unknown

/-- What a statement without a declaration of its own gives back is what it was given. -/
theorem walk_result (scope : Scope) (st : Stmt) : (walk scope st).result =
    match st with
    | .declare ty name init _ => scope.declare name (declaredTy ty (initTy scope init))
    | _ => scope := by
  cases st with
  | declare ty name init line => cases ty <;> cases init <;> unfold walk <;> rfl
  | assign target value =>
    unfold walk
    rfl
  | expr value =>
    unfold walk
    rfl
  | block stmts =>
    unfold walk
    exact leave_of_outer (walkAll_outer stmts scope.enter)
  | branch cond thenBranch elseBranch =>
    have hthen := inBlock_walk scope scope.enter thenBranch rfl
    cases elseBranch with
    | none =>
      unfold walk
      exact hthen
    | some other =>
      unfold walk
      simp only [inBlock, hthen]
      exact inBlock_walk scope scope.enter other rfl
  | foreach ty name iter body =>
    unfold walk
    exact inBlock_walk scope _ body rfl

end Typing

/-! ### Expressions in their scopes

The scope changes from statement to statement and stays the same inside an expression.
With every expression paired with its scope, the walk over statements is gone, and what is
left is a list of expressions to be typed.
-/

namespace Stmt

mutual

/-- The expressions of a statement in the order in which they are written, each with the
scope it stands in. -/
def scopedRoots (scope : Scope) : Stmt → List (Scope × Expr)
  | .declare _ _ init _ => init.toList.map (scope, ·)
  | .assign target value => [(scope, target), (scope, value)]
  | .expr value => [(scope, value)]
  | .block stmts => scopedRootsOfAll scope.enter stmts
  | .branch cond thenBranch elseBranch =>
    (scope, cond) :: (scopedRoots scope.enter thenBranch ++ scopedRootsOfElse scope.enter elseBranch)
  | .foreach ty name iter body =>
    (scope, iter) :: scopedRoots (scope.enter.declare name
      (Typing.declaredTy ty (Typing.infer scope iter).result.element)) body

/-- The expressions of several statements, each in its scope. -/
def scopedRootsOfAll (scope : Scope) : List Stmt → List (Scope × Expr)
  | [] => []
  | s :: rest => scopedRoots scope s ++ scopedRootsOfAll (Typing.walk scope s).result rest

/-- The expressions of an alternative, each in its scope. -/
def scopedRootsOfElse (scope : Scope) : Option Stmt → List (Scope × Expr)
  | none => []
  | some s => scopedRoots scope s

end

theorem map_snd_scopedRootsOfAll : ∀ {stmts : List Stmt},
    (∀ p ∈ stmts, ∀ scope, (p.scopedRoots scope).map Prod.snd = p.roots) →
    ∀ scope, (scopedRootsOfAll scope stmts).map Prod.snd = rootsOfAll stmts := by
  intro stmts
  induction stmts with
  | nil =>
    intro _ scope
    rfl
  | cons first rest ih =>
    intro h scope
    rw [scopedRootsOfAll, List.map_append, h first (by simp) scope,
      ih (fun p hp => h p (by simp [hp])), rootsOfAll]

/-- Without the scopes these are the expressions of the statement. -/
theorem map_snd_scopedRoots (st : Stmt) :
    ∀ scope, (st.scopedRoots scope).map Prod.snd = st.roots := by
  induction st using parts_induction with
  | step st ih =>
    intro scope
    cases st with
    | declare ty name init line => cases init <;> rfl
    | assign target value => rfl
    | expr value => rfl
    | block stmts =>
      exact map_snd_scopedRootsOfAll (fun p hp => ih p (by simpa [parts] using hp)) scope.enter
    | branch cond thenBranch elseBranch =>
      have hthen := ih thenBranch (by simp [parts]) scope.enter
      rw [roots_branch, scopedRoots, List.map_cons, List.map_append, hthen]
      cases elseBranch with
      | none => rfl
      | some other => simp [scopedRootsOfElse, ih other (by simp [parts]) scope.enter]
    | foreach ty name iter body =>
      rw [scopedRoots, List.map_cons, ih body (by simp [parts]), roots]

theorem roots_eq_map_snd (stmts : List Stmt) (scope : Scope) :
    rootsOfAll stmts = (scopedRootsOfAll scope stmts).map Prod.snd :=
  (map_snd_scopedRootsOfAll (fun p _ => map_snd_scopedRoots p) scope).symm

end Stmt

namespace Typing

open Stmt

theorem walkAll_rows_of : ∀ {stmts : List Stmt}, (∀ p ∈ stmts, ∀ scope,
      (walk scope p).rows = (p.scopedRoots scope).flatMap fun r => (infer r.1 r.2).rows) →
    ∀ scope, (walkAll scope stmts).rows
      = (scopedRootsOfAll scope stmts).flatMap fun r => (infer r.1 r.2).rows := by
  intro stmts
  induction stmts with
  | nil =>
    intro _ scope
    rfl
  | cons first rest ih =>
    intro h scope
    rw [walkAll, scopedRootsOfAll, List.flatMap_append, ← h first (by simp) scope,
      ← ih (fun p hp => h p (by simp [hp]))]

/-- **The rows of a statement are those of its expressions, each in its scope.** -/
theorem walk_rows (st : Stmt) : ∀ scope,
    (walk scope st).rows = (st.scopedRoots scope).flatMap fun r => (infer r.1 r.2).rows := by
  induction st using Stmt.parts_induction with
  | step st ih =>
    intro scope
    cases st with
    | declare ty name init line =>
      unfold walk
      cases init <;> simp [scopedRoots]
    | assign target value =>
      unfold walk
      simp [scopedRoots]
    | expr value =>
      unfold walk
      simp [scopedRoots]
    | block stmts =>
      unfold walk
      exact walkAll_rows_of (fun p hp => ih p (by simpa [Stmt.parts] using hp)) scope.enter
    | branch cond thenBranch elseBranch =>
      have hthen := ih thenBranch (by simp [Stmt.parts]) scope.enter
      unfold walk
      cases elseBranch with
      | none => simp [scopedRoots, scopedRootsOfElse, inBlock, hthen]
      | some other =>
        have helse := ih other (by simp [Stmt.parts]) scope.enter
        simp [scopedRoots, scopedRootsOfElse, inBlock, hthen, helse,
          inBlock_walk scope scope.enter thenBranch rfl]
    | foreach ty name iter body =>
      unfold walk
      simp only [inBlock, scopedRoots, List.flatMap_cons]
      rw [ih body (by simp [Stmt.parts])]
      rfl

theorem walkAll_rows (stmts : List Stmt) (scope : Scope) : (walkAll scope stmts).rows
    = (scopedRootsOfAll scope stmts).flatMap fun r => (infer r.1 r.2).rows :=
  walkAll_rows_of (fun p _ => walk_rows p) scope

/-- A row of a program is that of a node in its scope. -/
theorem mem_walkAll_rows {stmts : List Stmt} {scope : Scope} {row : Row} :
    row ∈ (walkAll scope stmts).rows ↔
      ∃ r ∈ scopedRootsOfAll scope stmts, ∃ n ∈ r.2.nodes, row = rowOf r.1 n := by
  rw [walkAll_rows, List.mem_flatMap]
  refine exists_congr fun r => and_congr_right fun _ => ?_
  rw [(infer_rows_perm r.1 r.2).mem_iff, List.mem_map]
  exact exists_congr fun n => and_congr_right fun _ => eq_comm

/-- The numbers of the rows are those of the nodes. -/
theorem walkAll_ids (stmts : List Stmt) (scope : Scope) : ((walkAll scope stmts).rows.map
    Prod.fst).Perm ((Expr.nodesOfAll (rootsOfAll stmts)).map Expr.id) := by
  rw [walkAll_rows, roots_eq_map_snd stmts scope, Expr.nodesOfAll_eq, List.map_flatMap,
    List.flatMap_map, List.map_flatMap]
  refine List.Perm.flatMap_left _ fun r _ => ?_
  have h := (infer_rows_perm r.1 r.2).map Prod.fst
  rwa [List.map_map] at h

end Typing

/-! ### Models

A model keeps the last row for a number.  With unique numbers there is only one, and the
table can be read as the list of rows.
-/

namespace Model

open Typing

/-- The types after several rows: a later row counts before an earlier one. -/
theorem getD_foldl_insert (rows : List Row) (id : Nat) : ∀ types : Std.TreeMap Nat Ty,
    ((rows.foldl (fun types row => types.insert row.1 row.2) types).getD id .unknown
        = types.getD id .unknown ∧ id ∉ rows.map Prod.fst) ∨
      (id, (rows.foldl (fun types row => types.insert row.1 row.2) types).getD id .unknown)
        ∈ rows := by
  induction rows with
  | nil =>
    intro types
    exact Or.inl ⟨rfl, by simp⟩
  | cons row rest ih =>
    intro types
    rw [List.foldl_cons]
    rcases ih (types.insert row.1 row.2) with ⟨hold, hnot⟩ | hmem
    · rw [hold, Std.TreeMap.getD_insert]
      by_cases hid : row.1 = id
      · subst hid
        exact Or.inr (by simp)
      · refine Or.inl ⟨?_, ?_⟩
        · rw [if_neg (by simpa using hid)]
        · simpa [Ne.symm hid] using hnot
    · exact Or.inr (List.mem_cons_of_mem _ hmem)

/-- A number without a row is unknown, and any other has one of its rows. -/
theorem typeOfId_ofRows (rows : List Row) (id : Nat) :
    ((ofRows rows).typeOfId id = .unknown ∧ id ∉ rows.map Prod.fst) ∨
      (id, (ofRows rows).typeOfId id) ∈ rows := by
  have h := getD_foldl_insert rows id ∅
  rwa [Std.TreeMap.getD_emptyc] at h

theorem typeOfId_of_mem {rows : List Row} (hnodup : (rows.map Prod.fst).Nodup) {id : Nat} {ty : Ty}
    (h : (id, ty) ∈ rows) : (ofRows rows).typeOfId id = ty := by
  rcases typeOfId_ofRows rows id with ⟨-, hnot⟩ | hmem
  · exact absurd (List.mem_map.mpr ⟨_, h, rfl⟩) hnot
  · have hrow := List.inj_on_of_nodup_map hnodup hmem h rfl
    exact congrArg Prod.snd hrow

/-- **Where numbers are unique, the model gives a node the type that it has in its scope.** -/
theorem typeOf_eq {p : Program} (hnodup : (p.nodes.map Expr.id).Nodup) {r : Scope × Expr}
    (hr : r ∈ Stmt.scopedRootsOfAll .empty p.stmts) {n : Expr} (hn : n ∈ r.2.nodes) :
    (ofProgram p).typeOf n = (infer r.1 n).result := by
  refine typeOfId_of_mem ?_ (mem_walkAll_rows.mpr ⟨r, hr, n, hn, rfl⟩)
  exact (walkAll_ids p.stmts .empty).nodup_iff.mpr hnodup

/-- What the model says of a number it says of some node in its scope, if it is known. -/
theorem typeOfId_cases (p : Program) (id : Nat) : (ofProgram p).typeOfId id = .unknown ∨
    ∃ r ∈ Stmt.scopedRootsOfAll .empty p.stmts, ∃ n ∈ r.2.nodes,
      (ofProgram p).typeOfId id = (infer r.1 n).result := by
  rcases typeOfId_ofRows (walkAll .empty p.stmts).rows id with ⟨hunknown, -⟩ | hmem
  · exact Or.inl hunknown
  · obtain ⟨r, hr, n, hn, hrow⟩ := mem_walkAll_rows.mp hmem
    exact Or.inr ⟨r, hr, n, hn, congrArg Prod.snd hrow⟩

end Model

end ListSugar
