/-
Trees up to their marks.

Numbers and places are what a tree remembers of where it was read; everything else
is its shape.  `mapMarks` changes the marks and keeps the shape.  `bare` forgets them,
so two trees have the same shape when they are equal bare.  One thing is lost when a
shape is written down: a missing element at the end of an initializer leaves only the
comma before it, and that comma is allowed to stand there anyway.  `trimmed` is the
tree that remains.

Proofs about trees go by `children_induction` and `parts_induction`: a property that
passes from the parts of a node or a statement to the whole holds of everything.
-/
import ListSugar.Program.Basic

namespace ListSugar

/-- The mark of a node whose number and place are forgotten. -/
def Mark.blank : Mark := ⟨0, .start⟩

namespace Expr

/-! ### Parts and nodes

`children` lists the parts of a node, whatever its kind, and `nodes` is shown to be the
node with the nodes of its parts.  Later proofs go by these two and meet the kinds of
nodes only where the kinds matter.
-/

theorem sizeOf_lt_of_mem_children {e c : Expr} (h : c ∈ e.children) : sizeOf c < sizeOf e := by
  cases e with
  | missing m => simp [children] at h
  | literal m value => simp [children] at h
  | ident m name => simp [children] at h
  | paren m inner =>
    obtain rfl : c = inner := by simpa [children] using h
    simp only [paren.sizeOf_spec]
    omega
  | unary m op operand =>
    obtain rfl : c = operand := by simpa [children] using h
    simp only [unary.sizeOf_spec]
    omega
  | binary m op left right =>
    rcases (by simpa [children] using h : c = left ∨ c = right) with rfl | rfl
    · simp only [binary.sizeOf_spec]
      omega
    · simp only [binary.sizeOf_spec]
      omega
  | member m receiver name =>
    obtain rfl : c = receiver := by simpa [children] using h
    simp only [member.sizeOf_spec]
    omega
  | call m callee args =>
    rcases (by simpa [children] using h : c = callee ∨ c ∈ args) with rfl | hmem
    · simp only [call.sizeOf_spec]
      omega
    · have := List.sizeOf_lt_of_mem hmem
      simp only [call.sizeOf_spec]
      omega
  | index m receiver args =>
    rcases (by simpa [children] using h : c = receiver ∨ c ∈ args) with rfl | hmem
    · simp only [index.sizeOf_spec]
      omega
    · have := List.sizeOf_lt_of_mem hmem
      simp only [index.sizeOf_spec]
      omega
  | new m ty args init =>
    rcases (by simpa [children] using h : c ∈ args.getD [] ∨ c ∈ init.getD []) with hmem | hmem
    · cases args with
      | none => simp at hmem
      | some es =>
        have := List.sizeOf_lt_of_mem (show c ∈ es by simpa using hmem)
        simp only [new.sizeOf_spec, Option.some.sizeOf_spec]
        omega
    · cases init with
      | none => simp at hmem
      | some es =>
        have := List.sizeOf_lt_of_mem (show c ∈ es by simpa using hmem)
        simp only [new.sizeOf_spec, Option.some.sizeOf_spec]
        omega

/-- **What passes from the parts of every node to the node holds of every tree.** -/
theorem children_induction {P : Expr → Prop}
    (step : ∀ e, (∀ c ∈ e.children, P c) → P e) (e : Expr) : P e :=
  step e fun c hc =>
    have := sizeOf_lt_of_mem_children hc
    children_induction step c
termination_by sizeOf e

theorem nodesOfAll_eq (es : List Expr) : nodesOfAll es = es.flatMap nodes := by
  induction es with
  | nil => rfl
  | cons e rest ih => rw [nodesOfAll, ih, List.flatMap_cons]

theorem nodesOfPart_eq (part : Option (List Expr)) :
    nodesOfPart part = (part.getD []).flatMap nodes := by
  cases part with
  | none => rfl
  | some es => exact nodesOfAll_eq es

/-- The nodes of a tree are its root and the nodes of the parts. -/
theorem nodes_eq (e : Expr) : e.nodes = e :: e.children.flatMap nodes := by
  cases e <;> simp [nodes, children, nodesOfAll_eq, nodesOfPart_eq]

theorem mem_nodes_iff {n e : Expr} : n ∈ e.nodes ↔ n = e ∨ ∃ c ∈ e.children, n ∈ c.nodes := by
  rw [nodes_eq]
  simp

theorem self_mem_nodes (e : Expr) : e ∈ e.nodes := mem_nodes_iff.mpr (Or.inl rfl)

/-- A property of all nodes is one of the root and of all nodes of the parts. -/
theorem forall_nodes_iff {P : Expr → Prop} {e : Expr} :
    (∀ n ∈ e.nodes, P n) ↔ P e ∧ ∀ c ∈ e.children, ∀ n ∈ c.nodes, P n := by
  constructor
  · intro h
    refine ⟨h e (self_mem_nodes e), fun c hc n hn => h n ?_⟩
    exact mem_nodes_iff.mpr (Or.inr ⟨c, hc, hn⟩)
  · rintro ⟨hroot, hparts⟩ n hn
    rcases mem_nodes_iff.mp hn with rfl | ⟨c, hc, hnc⟩
    · exact hroot
    · exact hparts c hc n hnc

theorem mem_nodes_trans {a b c : Expr} (hab : a ∈ b.nodes) : b ∈ c.nodes → a ∈ c.nodes := by
  induction c using children_induction with
  | step c ih =>
    intro hbc
    rcases mem_nodes_iff.mp hbc with rfl | ⟨d, hd, hbd⟩
    · exact hab
    · exact mem_nodes_iff.mpr (Or.inr ⟨d, hd, ih d hd hbd⟩)

theorem mem_nodes_of_mem_children {c e : Expr} (h : c ∈ e.children) : c ∈ e.nodes :=
  mem_nodes_iff.mpr (Or.inr ⟨c, h, self_mem_nodes c⟩)

/-! ### Trees with other marks

Forgetting marks, moving a text down and numbering anew are all changes of marks.  What
holds of `mapMarks` is shown once for all of them.
-/

mutual

/-- The tree with every mark changed by `f`. -/
def mapMarks (f : Mark → Mark) : Expr → Expr
  | .missing m => .missing (f m)
  | .literal m value => .literal (f m) value
  | .ident m name => .ident (f m) name
  | .paren m inner => .paren (f m) (inner.mapMarks f)
  | .unary m op operand => .unary (f m) op (operand.mapMarks f)
  | .binary m op left right => .binary (f m) op (left.mapMarks f) (right.mapMarks f)
  | .member m receiver name => .member (f m) (receiver.mapMarks f) name
  | .call m callee args => .call (f m) (callee.mapMarks f) (mapMarksAll f args)
  | .index m receiver args => .index (f m) (receiver.mapMarks f) (mapMarksAll f args)
  | .new m ty args init => .new (f m) ty (mapMarksPart f args) (mapMarksPart f init)

/-- Several trees with their marks changed. -/
def mapMarksAll (f : Mark → Mark) : List Expr → List Expr
  | [] => []
  | e :: rest => e.mapMarks f :: mapMarksAll f rest

/-- One part of a construction with its marks changed. -/
def mapMarksPart (f : Mark → Mark) : Option (List Expr) → Option (List Expr)
  | none => none
  | some es => some (mapMarksAll f es)

end

section

variable (f : Mark → Mark)

theorem mapMarksAll_eq (es : List Expr) : mapMarksAll f es = es.map (mapMarks f) := by
  induction es with
  | nil => rfl
  | cons e rest ih => rw [mapMarksAll, ih, List.map_cons]

theorem mapMarksPart_eq (part : Option (List Expr)) :
    mapMarksPart f part = part.map (List.map (mapMarks f)) := by
  cases part with
  | none => rfl
  | some es => rw [mapMarksPart, mapMarksAll_eq, Option.map_some]

@[simp] theorem mark_mapMarks (e : Expr) : (e.mapMarks f).mark = f e.mark := by
  cases e <;> rfl

@[simp] theorem isMissing_mapMarks (e : Expr) : (e.mapMarks f).isMissing = e.isMissing := by
  cases e <;> rfl

theorem children_mapMarks (e : Expr) : (e.mapMarks f).children = e.children.map (mapMarks f) := by
  cases e with
  | new m ty args init =>
    cases args <;> cases init <;> simp [mapMarks, children, mapMarksPart_eq]
  | _ => simp [mapMarks, children, mapMarksAll_eq]

/-- The nodes of a tree with other marks are its nodes with other marks. -/
theorem nodes_mapMarks (e : Expr) : (e.mapMarks f).nodes = e.nodes.map (mapMarks f) := by
  induction e using children_induction with
  | step e ih =>
    rw [nodes_eq, nodes_eq e, children_mapMarks, List.map_cons, List.map_flatMap,
      List.flatMap_map, List.flatMap_def, List.flatMap_def, List.map_congr_left ih]

end

/-- A tree whose marks all stay is the same tree. -/
theorem mapMarks_eq_self {f : Mark → Mark} {e : Expr} :
    (∀ n ∈ e.nodes, f n.mark = n.mark) → e.mapMarks f = e := by
  induction e using children_induction with
  | step e ih =>
    intro h
    obtain ⟨hroot, hparts⟩ := forall_nodes_iff.mp h
    have hchildren : ∀ c ∈ e.children, c.mapMarks f = c := fun c hc => ih c hc (hparts c hc)
    have hall : ∀ {es : List Expr}, (∀ c ∈ es, c.mapMarks f = c) → es.map (mapMarks f) = es :=
      fun hes => (List.map_congr_left hes).trans (List.map_id' _)
    cases e with
    | new m ty args init =>
      cases args <;> cases init <;> simp_all [mapMarks, children, mapMarksPart_eq, mark]
    | _ => simp_all [mapMarks, children, mapMarksAll_eq, mark]

theorem mapMarks_mapMarks (f g : Mark → Mark) (e : Expr) :
    (e.mapMarks f).mapMarks g = e.mapMarks fun m => g (f m) := by
  induction e using children_induction with
  | step e ih =>
    cases e with
    | new m ty args init =>
      cases args <;> cases init <;> simp_all [mapMarks, children, mapMarksPart_eq]
    | _ => simp_all [mapMarks, children, mapMarksAll_eq]

/-! ### Trees without marks -/

mutual

/-- The tree without its numbers and places. -/
def bare : Expr → Expr
  | .missing _ => .missing .blank
  | .literal _ value => .literal .blank value
  | .ident _ name => .ident .blank name
  | .paren _ inner => .paren .blank inner.bare
  | .unary _ op operand => .unary .blank op operand.bare
  | .binary _ op left right => .binary .blank op left.bare right.bare
  | .member _ receiver name => .member .blank receiver.bare name
  | .call _ callee args => .call .blank callee.bare (bareAll args)
  | .index _ receiver args => .index .blank receiver.bare (bareAll args)
  | .new _ ty args init => .new .blank ty (barePart args) (barePart init)

/-- Several trees without their marks. -/
def bareAll : List Expr → List Expr
  | [] => []
  | e :: rest => e.bare :: bareAll rest

/-- One part of a construction without its marks. -/
def barePart : Option (List Expr) → Option (List Expr)
  | none => none
  | some es => some (bareAll es)

end

theorem bareAll_eq (es : List Expr) : bareAll es = es.map bare := by
  induction es with
  | nil => rfl
  | cons e rest ih => rw [bareAll, ih, List.map_cons]

theorem barePart_eq (part : Option (List Expr)) : barePart part = part.map bareAll := by
  cases part <;> rfl

/-- To forget the marks is to make all of them blank. -/
theorem bare_eq_mapMarks (e : Expr) : e.bare = e.mapMarks fun _ => .blank := by
  induction e using children_induction with
  | step e ih =>
    cases e with
    | new m ty args init =>
      cases args <;> cases init <;>
        simp_all [bare, mapMarks, children, barePart_eq, bareAll_eq, mapMarksPart_eq]
    | _ => simp_all [bare, mapMarks, children, bareAll_eq, mapMarksAll_eq]

theorem bare_mapMarks (f : Mark → Mark) (e : Expr) : (e.mapMarks f).bare = e.bare := by
  rw [bare_eq_mapMarks, mapMarks_mapMarks, bare_eq_mapMarks]

@[simp] theorem isMissing_bare (e : Expr) : e.bare.isMissing = e.isMissing := by
  cases e <;> rfl

/-- The nodes of a tree without marks are its nodes without marks. -/
theorem nodes_bare (e : Expr) : e.bare.nodes = e.nodes.map bare := by
  rw [funext bare_eq_mapMarks]
  exact nodes_mapMarks _ e

/-! ### Trees as they come back from their text -/

/-- The elements without a missing one at the end. -/
def dropLastMissing (es : List Expr) : List Expr :=
  match es.getLast? with
  | none => []
  | some last => if last.isMissing then es.dropLast else es

mutual

/-- The tree with every initializer cut short by one missing element at its end. -/
def trimmed : Expr → Expr
  | .missing m => .missing m
  | .literal m value => .literal m value
  | .ident m name => .ident m name
  | .paren m inner => .paren m inner.trimmed
  | .unary m op operand => .unary m op operand.trimmed
  | .binary m op left right => .binary m op left.trimmed right.trimmed
  | .member m receiver name => .member m receiver.trimmed name
  | .call m callee args => .call m callee.trimmed (trimmedAll args)
  | .index m receiver args => .index m receiver.trimmed (trimmedAll args)
  | .new m ty args init =>
    .new m ty (trimmedPart args) ((trimmedPart init).map dropLastMissing)

/-- Several trees trimmed. -/
def trimmedAll : List Expr → List Expr
  | [] => []
  | e :: rest => e.trimmed :: trimmedAll rest

/-- One part of a construction with its trees trimmed. -/
def trimmedPart : Option (List Expr) → Option (List Expr)
  | none => none
  | some es => some (trimmedAll es)

end

theorem trimmedAll_eq (es : List Expr) : trimmedAll es = es.map trimmed := by
  induction es with
  | nil => rfl
  | cons e rest ih => rw [trimmedAll, ih, List.map_cons]

@[simp] theorem isMissing_trimmed (e : Expr) : e.trimmed.isMissing = e.isMissing := by
  cases e <;> rfl

end Expr

namespace Stmt

/-! ### Statements -/

/-- The statements that a statement is made of. -/
def parts : Stmt → List Stmt
  | .block stmts => stmts
  | .branch _ thenBranch elseBranch => thenBranch :: elseBranch.toList
  | .foreach _ _ _ body => [body]
  | _ => []

theorem sizeOf_lt_of_mem_parts {s p : Stmt} (h : p ∈ s.parts) : sizeOf p < sizeOf s := by
  cases s with
  | declare ty name init line => simp [parts] at h
  | assign target value => simp [parts] at h
  | expr value => simp [parts] at h
  | block stmts =>
    have := List.sizeOf_lt_of_mem (show p ∈ stmts by simpa [parts] using h)
    simp only [block.sizeOf_spec]
    omega
  | branch cond thenBranch elseBranch =>
    rcases (by simpa [parts] using h : p = thenBranch ∨ elseBranch = some p) with rfl | rfl
    · simp only [branch.sizeOf_spec]
      omega
    · simp only [branch.sizeOf_spec, Option.some.sizeOf_spec]
      omega
  | foreach ty name iter body =>
    obtain rfl : p = body := by simpa [parts] using h
    simp only [foreach.sizeOf_spec]
    omega

/-- **What passes from the parts of every statement to the statement holds of every
statement.** -/
theorem parts_induction {P : Stmt → Prop}
    (step : ∀ s, (∀ p ∈ s.parts, P p) → P s) (s : Stmt) : P s :=
  step s fun p hp =>
    have := sizeOf_lt_of_mem_parts hp
    parts_induction step p
termination_by sizeOf s

theorem rootsOfAll_eq (stmts : List Stmt) : rootsOfAll stmts = stmts.flatMap roots := by
  induction stmts with
  | nil => rfl
  | cons s rest ih => rw [rootsOfAll, ih, List.flatMap_cons]

theorem roots_branch (cond : Expr) (thenBranch : Stmt) (elseBranch : Option Stmt) :
    (branch cond thenBranch elseBranch).roots
      = cond :: (thenBranch.roots ++ elseBranch.toList.flatMap roots) := by
  cases elseBranch <;> simp [roots]

/-- The expressions of a part are expressions of the whole. -/
theorem mem_roots_of_mem_parts {s p : Stmt} (hp : p ∈ s.parts) {e : Expr} (he : e ∈ p.roots) :
    e ∈ s.roots := by
  cases s with
  | declare ty name init line => cases hp
  | assign target value => cases hp
  | expr value => cases hp
  | block stmts =>
    rw [roots, rootsOfAll_eq, List.mem_flatMap]
    exact ⟨p, hp, he⟩
  | branch cond thenBranch elseBranch =>
    rw [roots_branch]
    rcases (by simpa [parts] using hp : p = thenBranch ∨ elseBranch = some p) with rfl | rfl
    · simp [he]
    · simp [he]
  | foreach ty name iter body =>
    obtain rfl : p = body := by simpa [parts] using hp
    simp [roots, he]

mutual

/-- The statement with every expression changed by `f` and the line by `g`. -/
def mapExprs (f : Expr → Expr) (g : Nat → Nat) : Stmt → Stmt
  | .declare ty name init line => .declare ty name (init.map f) (g line)
  | .assign target value => .assign (f target) (f value)
  | .expr value => .expr (f value)
  | .block stmts => .block (mapAllExprs f g stmts)
  | .branch cond thenBranch elseBranch =>
    .branch (f cond) (mapExprs f g thenBranch) (mapElseExprs f g elseBranch)
  | .foreach ty name iter body => .foreach ty name (f iter) (mapExprs f g body)

/-- Several statements with their expressions changed. -/
def mapAllExprs (f : Expr → Expr) (g : Nat → Nat) : List Stmt → List Stmt
  | [] => []
  | s :: rest => mapExprs f g s :: mapAllExprs f g rest

/-- An alternative with its expressions changed. -/
def mapElseExprs (f : Expr → Expr) (g : Nat → Nat) : Option Stmt → Option Stmt
  | none => none
  | some s => some (mapExprs f g s)

end

theorem mapAllExprs_eq (f : Expr → Expr) (g : Nat → Nat) (stmts : List Stmt) :
    mapAllExprs f g stmts = stmts.map (mapExprs f g) := by
  induction stmts with
  | nil => rfl
  | cons first rest ih => rw [mapAllExprs, ih, List.map_cons]

theorem rootsOfAll_map {f : Expr → Expr} {g : Stmt → Stmt} {stmts : List Stmt}
    (h : ∀ p ∈ stmts, (g p).roots = p.roots.map f) :
    rootsOfAll (stmts.map g) = (rootsOfAll stmts).map f := by
  rw [rootsOfAll_eq, rootsOfAll_eq, List.flatMap_map, List.map_flatMap, List.flatMap_def,
    List.flatMap_def, List.map_congr_left h]

/-- The expressions of a changed statement are its expressions, changed. -/
theorem roots_mapExprs (f : Expr → Expr) (g : Nat → Nat) (s : Stmt) :
    (s.mapExprs f g).roots = s.roots.map f := by
  induction s using parts_induction with
  | step s ih =>
    cases s with
    | declare ty name init line => cases init <;> rfl
    | assign target value => rfl
    | expr value => rfl
    | block stmts =>
      rw [mapExprs, roots, roots, mapAllExprs_eq]
      exact rootsOfAll_map fun p hp => ih p (by simpa [parts] using hp)
    | branch cond thenBranch elseBranch =>
      have hthen := ih thenBranch (by simp [parts])
      cases elseBranch with
      | none => simp [mapExprs, mapElseExprs, roots_branch, hthen]
      | some other =>
        have helse := ih other (by simp [parts])
        simp [mapExprs, mapElseExprs, roots_branch, hthen, helse]
    | foreach ty name iter body =>
      have hbody := ih body (by simp [parts])
      simp [mapExprs, roots, hbody]

theorem mapExprs_eq_self {f : Expr → Expr} {g : Nat → Nat} (hg : ∀ line, g line = line)
    {s : Stmt} : (∀ e ∈ s.roots, f e = e) → s.mapExprs f g = s := by
  induction s using parts_induction with
  | step s ih =>
    intro h
    have hparts : ∀ p ∈ s.parts, p.mapExprs f g = p := fun p hp =>
      ih p hp fun e he => h e (mem_roots_of_mem_parts hp he)
    cases s with
    | declare ty name init line => cases init <;> simp_all [mapExprs, roots]
    | block stmts =>
      rw [mapExprs, mapAllExprs_eq]
      exact congrArg block ((List.map_congr_left hparts).trans (List.map_id' _))
    | branch cond thenBranch elseBranch =>
      cases elseBranch <;> simp_all [mapExprs, mapElseExprs, parts, roots]
    | _ => simp_all [mapExprs, parts, roots]

/-- The statement without numbers, places and lines. -/
def bare (s : Stmt) : Stmt := s.mapExprs Expr.bare fun _ => 0

/-- The statement with every initializer cut short by one missing element at its end. -/
def trimmed (s : Stmt) : Stmt := s.mapExprs Expr.trimmed id

theorem bare_mapExprs {f : Expr → Expr} (hf : ∀ e, (f e).bare = e.bare) (g : Nat → Nat)
    (s : Stmt) : (s.mapExprs f g).bare = s.bare := by
  induction s using parts_induction with
  | step s ih =>
    unfold bare at ih ⊢
    cases s with
    | declare ty name init line => cases init <;> simp [mapExprs, hf]
    | block stmts => simp_all [mapExprs, mapAllExprs_eq, parts]
    | branch cond thenBranch elseBranch =>
      cases elseBranch <;> simp_all [mapExprs, mapElseExprs, parts]
    | _ => simp_all [mapExprs, parts]

theorem roots_bare (s : Stmt) : s.bare.roots = s.roots.map Expr.bare :=
  roots_mapExprs Expr.bare _ s

theorem roots_trimmed (s : Stmt) : s.trimmed.roots = s.roots.map Expr.trimmed :=
  roots_mapExprs Expr.trimmed _ s

theorem bare_block (stmts : List Stmt) : (block stmts).bare = block (stmts.map bare) := by
  unfold bare
  rw [mapExprs, mapAllExprs_eq]

theorem bare_branch (cond : Expr) (thenBranch : Stmt) (elseBranch : Option Stmt) :
    (branch cond thenBranch elseBranch).bare
      = branch cond.bare thenBranch.bare (elseBranch.map bare) := by
  cases elseBranch <;> rfl

theorem trimmed_block (stmts : List Stmt) :
    (block stmts).trimmed = block (stmts.map trimmed) := by
  unfold trimmed
  rw [mapExprs, mapAllExprs_eq]

end Stmt

theorem Program.nodes_eq_flatMap (p : Program) : p.nodes = p.roots.flatMap Expr.nodes := by
  rw [nodes, Expr.nodesOfAll_eq]

theorem Program.mem_nodes_of_mem_roots {p : Program} {e n : Expr} (he : e ∈ p.roots)
    (hn : n ∈ e.nodes) : n ∈ p.nodes := by
  rw [nodes_eq_flatMap, List.mem_flatMap]
  exact ⟨e, he, hn⟩

end ListSugar
