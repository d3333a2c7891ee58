/-
What holds of every type in a model.

Types come into a program in three ways: rules that name a predefined type, types that
are written down, and the element types of these.  A property that all of them have is a
property of every type that the model of a program gives.
-/
import ListSugar.Proofs.Typing.Rows

namespace ListSugar

namespace Ty

theorem ofTypeExprs_eq (tys : List TypeExpr) : ofTypeExprs tys = tys.map ofTypeExpr := by
  induction tys with
  | nil => rfl
  | cons ty rest ih => rw [ofTypeExprs, ih, List.map_cons]

theorem toTypeExprs_eq (tys : List Ty) : toTypeExprs tys = tys.map toTypeExpr := by
  induction tys with
  | nil => rfl
  | cons ty rest ih => rw [toTypeExprs, ih, List.map_cons]

end Ty

/-- The property holds of every type that a rule can name, and passes to element types. -/
structure Ty.Closed (Q : Ty → Prop) : Prop where
  int : Q .int
  double : Q .double
  bool : Q .bool
  char : Q .char
  str : Q .str
  unknown : Q .unknown
  element : ∀ {ty}, Q ty → Q ty.element

/-- The property holds of every declaration in sight. -/
def Scope.All (Q : Ty → Prop) (scope : Scope) : Prop :=
  ∀ frame ∈ scope.frames, ∀ declared ∈ frame, Q declared.2

namespace Scope

variable {Q : Ty → Prop} {scope : Scope}

theorem all_empty : Scope.empty.All Q := by
  intro frame hframe declared hdeclared
  obtain rfl : frame = [] := by simpa [empty, frames] using hframe
  cases hdeclared

theorem All.enter (h : scope.All Q) : scope.enter.All Q := by
  intro frame hframe declared hdeclared
  rcases List.mem_cons.mp hframe with rfl | hframe
  · cases hdeclared
  · exact h frame hframe declared hdeclared

theorem All.declare (h : scope.All Q) {ty : Ty} (hty : Q ty) (name : String) :
    (scope.declare name ty).All Q := by
  intro frame hframe declared hdeclared
  rcases List.mem_cons.mp hframe with rfl | hframe
  · rcases List.mem_cons.mp hdeclared with rfl | hdeclared
    · exact hty
    · exact h scope.inner (by simp [frames]) declared hdeclared
  · exact h frame (by simpa [frames] using Or.inr hframe) declared hdeclared

theorem All.lookup (h : scope.All Q) (hunknown : Q .unknown) (name : String) :
    Q (scope.lookup name) := by
  unfold Scope.lookup
  cases hfind : scope.frames.findSome? (List.lookup name) with
  | none => exact hunknown
  | some ty =>
    obtain ⟨frame, hframe, hlookup⟩ := List.exists_of_findSome?_eq_some hfind
    obtain ⟨before, after, rfl, -⟩ := List.lookup_eq_some_iff.mp hlookup
    exact h _ hframe (name, ty) (by simp)

end Scope

namespace Typing

variable {Q : Ty → Prop}

/-! ### Every rule -/

theorem closed_literal (hQ : Ty.Closed Q) (value : Literal) : Q (literal value) := by
  cases value with
  | int value => exact hQ.int
  | double value => exact hQ.double
  | str value => exact hQ.str
  | char value => exact hQ.char
  | bool value => exact hQ.bool
  | null => exact hQ.unknown

theorem closed_unary (hQ : Ty.Closed Q) (op : UnaryOp) (ty : Ty) : Q (unary op ty) := by
  unfold unary
  split
  · exact hQ.int
  · exact hQ.int
  · exact hQ.double
  · exact hQ.bool
  · exact hQ.unknown

theorem closed_arithmetic (hQ : Ty.Closed Q) (left right : Ty) : Q (arithmetic left right) := by
  unfold arithmetic
  split
  · split
    · exact hQ.double
    · exact hQ.double
    · exact hQ.int
  · exact hQ.unknown

theorem closed_binary (hQ : Ty.Closed Q) (op : BinaryOp) (left right : Ty) :
    Q (binary op left right) := by
  have harith := closed_arithmetic hQ left right
  have htest : ∀ b : Bool, Q (if b then .bool else .unknown) := by
    intro b
    cases b with
    | false => exact hQ.unknown
    | true => exact hQ.bool
  cases op with
  | add =>
    show Q (if left.isStr || right.isStr then .str else arithmetic left right)
    by_cases hstr : (left.isStr || right.isStr) = true
    · rw [if_pos hstr]
      exact hQ.str
    · rw [if_neg hstr]
      exact harith
  | sub => exact harith
  | mul => exact harith
  | div => exact harith
  | rem => exact harith
  | eq => exact hQ.bool
  | neq => exact hQ.bool
  | lt => exact htest _
  | gt => exact htest _
  | lte => exact htest _
  | gte => exact htest _
  | and => exact htest _
  | or => exact htest _

theorem closed_member (hQ : Ty.Closed Q) (receiver : Ty) (name : String) :
    Q (member receiver name) := by
  have hint : ∀ size : String, Q (if name = size then .int else .unknown) := by
    intro size
    by_cases hname : name = size
    · rw [if_pos hname]
      exact hQ.int
    · rw [if_neg hname]
      exact hQ.unknown
  unfold member
  split
  · exact hint "Count"
  · exact hint "Length"
  · exact hint "Length"
  · exact hQ.unknown

theorem closed_call (hQ : Ty.Closed Q) (callee : Expr) (args : List Expr) :
    Q (call callee args) := by
  unfold call
  split
  · split
    · exact hQ.str
    · exact hQ.unknown
  · exact hQ.unknown

theorem closed_index (hQ : Ty.Closed Q) {receiver : Ty} (h : Q receiver) (args : List Ty) :
    Q (index receiver args) := by
  unfold index
  split
  · exact hQ.element h
  · exact hQ.unknown

/-! ### Every expression -/

/-- The type of an expression has the property, in a scope whose declarations have it, if
all types that constructions write have it. -/
theorem closed_infer (hQ : Ty.Closed Q) {scope : Scope} (hscope : scope.All Q) (e : Expr) :
    (∀ m ty args init, .new m ty args init ∈ e.nodes → Q (.ofTypeExpr ty)) →
      Q (infer scope e).result := by
  induction e using Expr.children_induction with
  | step e ih =>
    intro hnew
    have hchild : ∀ c ∈ e.children, Q (infer scope c).result := fun c hc =>
      ih c hc fun m ty args init hmem =>
        hnew m ty args init (Expr.mem_nodes_iff.mpr (Or.inr ⟨c, hc, hmem⟩))
    cases e with
    | missing m => exact hQ.unknown
    | literal m value => exact closed_literal hQ value
    | ident m name => exact hscope.lookup hQ.unknown name
    | paren m inner => exact hchild inner (by simp [Expr.children])
    | unary m op operand => exact closed_unary hQ op _
    | binary m op left right =>
      show Q (if left.isMissing || right.isMissing then .unknown
        else binary op (infer scope left).result (infer scope right).result)
      by_cases hmissing : (left.isMissing || right.isMissing) = true
      · rw [if_pos hmissing]
        exact hQ.unknown
      · rw [if_neg hmissing]
        exact closed_binary hQ op _ _
    | member m receiver name => exact closed_member hQ _ name
    | call m callee args => exact closed_call hQ callee args
    | index m receiver args => exact closed_index hQ (hchild receiver (by simp [Expr.children])) _
    | new m ty args init => exact hnew m ty args init (Expr.self_mem_nodes _)

end Typing

/-! ### Every statement

Two things let types into the scopes of a statement: the types that its declarations write
and the types of its expressions.  Along the walk both are handed on as one assumption, so
that a part of a statement is under the assumption of the whole.
-/

namespace Stmt

mutual

/-- The types that the declarations of a statement write. -/
def types : Stmt → List TypeExpr
  | .declare ty _ _ _ => ty.toList
  | .assign _ _ => []
  | .expr _ => []
  | .block stmts => typesOfAll stmts
  | .branch _ thenBranch elseBranch => thenBranch.types ++ typesOfElse elseBranch
  | .foreach ty _ _ body => ty.toList ++ body.types

/-- The types that the declarations of several statements write. -/
def typesOfAll : List Stmt → List TypeExpr
  | [] => []
  | s :: rest => s.types ++ typesOfAll rest

/-- The types that the declarations of an alternative write. -/
def typesOfElse : Option Stmt → List TypeExpr
  | none => []
  | some s => s.types

end

/-- The property holds of every type that a statement with these expressions and declared
types writes. -/
structure Writes (Q : Ty → Prop) (roots : List Expr) (types : List TypeExpr) : Prop where
  construction : ∀ e ∈ roots, ∀ m ty args init, .new m ty args init ∈ e.nodes →
    Q (.ofTypeExpr ty)
  declaration : ∀ ty ∈ types, Q (.ofTypeExpr ty)

theorem Writes.mono {Q : Ty → Prop} {roots roots' : List Expr} {types types' : List TypeExpr}
    (h : Writes Q roots types) (hroots : ∀ e ∈ roots', e ∈ roots)
    (htypes : ∀ ty ∈ types', ty ∈ types) : Writes Q roots' types' :=
  ⟨fun e he => h.construction e (hroots e he), fun ty hty => h.declaration ty (htypes ty hty)⟩

theorem typesOfAll_eq (stmts : List Stmt) : typesOfAll stmts = stmts.flatMap types := by
  induction stmts with
  | nil => rfl
  | cons s rest ih => rw [typesOfAll, ih, List.flatMap_cons]

theorem mem_types_of_mem_parts {s p : Stmt} (hp : p ∈ s.parts) {ty : TypeExpr}
    (hty : ty ∈ p.types) : ty ∈ s.types := by
  cases s with
  | declare ty name init line => cases hp
  | assign target value => cases hp
  | expr value => cases hp
  | block stmts =>
    rw [types, typesOfAll_eq, List.mem_flatMap]
    exact ⟨p, hp, hty⟩
  | branch cond thenBranch elseBranch =>
    rcases (by simpa [parts] using hp : p = thenBranch ∨ elseBranch = some p) with rfl | rfl
    · simp [types, hty]
    · simp [types, typesOfElse, hty]
  | foreach ty' name iter body =>
    obtain rfl : p = body := by simpa [parts] using hp
    simp [types, hty]

end Stmt

namespace Typing

open Stmt

variable {Q : Ty → Prop}

theorem closed_walk (hQ : Ty.Closed Q) {scope : Scope} (hscope : scope.All Q) {st : Stmt}
    (h : Writes Q st.roots st.types) : (walk scope st).result.All Q := by
  rw [walk_result]
  cases st with
  | declare ty name init line =>
    refine hscope.declare ?_ name
    cases ty with
    | some ty => exact h.declaration ty (by simp [types])
    | none =>
      cases init with
      | none => exact hQ.unknown
      | some e => exact closed_infer hQ hscope e (h.construction e (by simp [roots]))
  | _ => exact hscope

theorem closed_scopedRootsOfAll (hQ : Ty.Closed Q) : ∀ {stmts : List Stmt},
    (∀ p ∈ stmts, ∀ {scope : Scope}, scope.All Q → Writes Q p.roots p.types →
      ∀ r ∈ p.scopedRoots scope, r.1.All Q) →
    ∀ {scope : Scope}, scope.All Q → Writes Q (rootsOfAll stmts) (typesOfAll stmts) →
      ∀ r ∈ scopedRootsOfAll scope stmts, r.1.All Q := by
  intro stmts
  induction stmts with
  | nil =>
    intro _ scope _ _ r hr
    cases hr
  | cons first rest ih =>
    intro hall scope hscope h r hr
    have hfirst : Writes Q first.roots first.types :=
      h.mono (fun e he => by simp [rootsOfAll, he]) fun ty hty => by simp [typesOfAll, hty]
    have hrest : Writes Q (rootsOfAll rest) (typesOfAll rest) :=
      h.mono (fun e he => by simp [rootsOfAll, he]) fun ty hty => by simp [typesOfAll, hty]
    rcases List.mem_append.mp hr with hr | hr
    · exact hall first (by simp) hscope hfirst r hr
    · exact ih (fun p hp => hall p (by simp [hp])) (closed_walk hQ hscope hfirst) hrest r hr

/-- **Every scope in a statement has the property that its written types have.** -/
theorem closed_scopedRoots (hQ : Ty.Closed Q) (st : Stmt) : ∀ {scope : Scope}, scope.All Q →
    Writes Q st.roots st.types → ∀ r ∈ st.scopedRoots scope, r.1.All Q := by
  induction st using Stmt.parts_induction with
  | step st ih =>
    intro scope hscope h r hr
    have hpart : ∀ p ∈ st.parts, Writes Q p.roots p.types := fun p hp =>
      h.mono (fun e he => mem_roots_of_mem_parts hp he) fun ty hty => mem_types_of_mem_parts hp hty
    cases st with
    | declare ty name init line =>
      obtain ⟨e, -, rfl⟩ := List.mem_map.mp hr
      exact hscope
    | assign target value =>
      rcases (by simpa [scopedRoots] using hr : r = (scope, target) ∨ r = (scope, value))
        with rfl | rfl
      · exact hscope
      · exact hscope
    | expr value =>
      obtain rfl : r = (scope, value) := by simpa [scopedRoots] using hr
      exact hscope
    | block stmts =>
      exact closed_scopedRootsOfAll hQ (fun p hp => ih p (by simpa [parts] using hp))
        hscope.enter h r hr
    | branch cond thenBranch elseBranch =>
      rcases List.mem_cons.mp hr with rfl | hr
      · exact hscope
      rcases List.mem_append.mp hr with hr | hr
      · exact ih thenBranch (by simp [parts]) hscope.enter (hpart _ (by simp [parts])) r hr
      · cases elseBranch with
        | none => cases hr
        | some other =>
          exact ih other (by simp [parts]) hscope.enter (hpart _ (by simp [parts])) r hr
    | foreach ty name iter body =>
      rcases List.mem_cons.mp hr with rfl | hr
      · exact hscope
      have hdeclared : Q (declaredTy ty (infer scope iter).result.element) := by
        cases ty with
        | some ty => exact h.declaration ty (by simp [types])
        | none =>
          exact hQ.element (closed_infer hQ hscope iter (h.construction iter (by simp [roots])))
      exact ih body (by simp [parts]) (hscope.enter.declare hdeclared name)
        (hpart _ (by simp [parts])) r hr

/-- **A property of all written types that the rules keep holds of every type in the
model.** -/
theorem closed_typeOfId (hQ : Ty.Closed Q) {p : Program}
    (h : Writes Q p.roots (typesOfAll p.stmts)) (id : Nat) : Q ((Model.ofProgram p).typeOfId id) := by
  rcases Model.typeOfId_cases p id with hunknown | ⟨r, hr, n, hn, hty⟩
  · rw [hunknown]
    exact hQ.unknown
  · rw [hty]
    have hscope : r.1.All Q := closed_scopedRootsOfAll hQ (fun st _ => closed_scopedRoots hQ st)
      Scope.all_empty h r hr
    have hroot : r.2 ∈ p.roots := by
      rw [Program.roots, roots_eq_map_snd p.stmts .empty]
      exact List.mem_map.mpr ⟨r, hr, rfl⟩
    refine closed_infer hQ hscope n fun m ty args init hmem => ?_
    exact h.construction r.2 hroot m ty args init (Expr.mem_nodes_trans hmem hn)

end Typing

end ListSugar
