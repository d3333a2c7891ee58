/-
How much a program can still lose.

The weight of some nodes is the number of element accesses and missing operands among
them.  A literal that is expanded takes its own access with it and hands on only nodes
that stood in it, and an element that trimming drops is a missing one.  So each of the two
changes makes a tree lighter or leaves it exactly as it is, and a statement changes as its
expressions do.
-/
import ListSugar.Proofs.Pass.Rewrites

namespace ListSugar

namespace Expr

/-- Whether the node is an element access. -/
def isIndex : Expr → Bool
  | .index _ _ _ => true
  | _ => false

/-- How many element accesses and missing operands are among the nodes. -/
def weight (ns : List Expr) : Nat := ns.countP isIndex + ns.countP isMissing

@[simp] theorem weight_nil : weight [] = 0 := rfl

@[simp] theorem weight_cons (n : Expr) (ns : List Expr) :
    weight (n :: ns) = n.isIndex.toNat + n.isMissing.toNat + weight ns := by
  unfold weight
  cases hindex : n.isIndex <;> cases hmissing : n.isMissing <;>
    simp only [List.countP_cons, hindex, hmissing, Bool.toNat_true, Bool.toNat_false, if_true,
      Bool.false_eq_true, if_false] <;> omega

@[simp] theorem weight_append (ns ms : List Expr) : weight (ns ++ ms) = weight ns + weight ms := by
  simp only [weight, List.countP_append]
  omega

theorem weight_le_of_sublist {ns ms : List Expr} (h : ns.Sublist ms) : weight ns ≤ weight ms :=
  Nat.add_le_add h.countP_le h.countP_le

end Expr

/-! ### Lighter than before, or the same

That the weight does not grow would not be enough: a program of the same weight could
still change from round to round.  So a tree that is not lighter has to be the same tree,
and both halves are carried through the nodes together.
-/

/-- Seen by its nodes, `a'` is lighter than `a`, unless it is `a` itself. -/
def Lighter {α : Type} (nodes : α → List Expr) (a a' : α) : Prop :=
  a' = a ∨ Expr.weight (nodes a') < Expr.weight (nodes a)

namespace Lighter

variable {α β γ : Type} {nodes : α → List Expr} {nodes₁ : β → List Expr} {nodes₂ : γ → List Expr}

theorem refl (a : α) : Lighter nodes a a := Or.inl rfl

theorem trans {a b c : α} (h : Lighter nodes a b) (h' : Lighter nodes b c) :
    Lighter nodes a c := by
  rcases h with rfl | h
  · exact h'
  · rcases h' with rfl | h'
    · exact Or.inr h
    · exact Or.inr (Nat.lt_trans h' h)

theorem weight_le {a a' : α} (h : Lighter nodes a a') :
    Expr.weight (nodes a') ≤ Expr.weight (nodes a) := by
  rcases h with rfl | h
  · exact Nat.le_refl _
  · exact Nat.le_of_lt h

/-- What is built from one part, with a weight of its own, is lighter if the part is. -/
theorem map {f : α → γ} (own : Nat)
    (hf : ∀ a, Expr.weight (nodes₂ (f a)) = own + Expr.weight (nodes a)) {a a' : α}
    (h : Lighter nodes a a') : Lighter nodes₂ (f a) (f a') := by
  rcases h with rfl | h
  · exact refl _
  · refine Or.inr ?_
    rw [hf, hf]
    omega

/-- What is built from two parts, with a weight of its own, is lighter if they are. -/
theorem map₂ {f : α → β → γ} (own : Nat)
    (hf : ∀ a b, Expr.weight (nodes₂ (f a b))
      = own + (Expr.weight (nodes a) + Expr.weight (nodes₁ b))) {a a' : α} {b b' : β}
    (ha : Lighter nodes a a') (hb : Lighter nodes₁ b b') : Lighter nodes₂ (f a b) (f a' b') := by
  have hle := ha.weight_le
  rcases hb with rfl | hb
  · refine ha.map (f := (f · b')) (own + Expr.weight (nodes₁ b')) fun a => ?_
    rw [hf]
    omega
  · refine Or.inr ?_
    rw [hf, hf]
    omega

/-! ### Nodes around lighter parts -/

variable {c c' : Expr} {es es' : List Expr}

theorem paren (m : Mark) (h : Lighter Expr.nodes c c') :
    Lighter Expr.nodes (.paren m c) (.paren m c') :=
  h.map 0 fun c => by simp [Expr.nodes, Expr.isIndex, Expr.isMissing]

theorem unary (m : Mark) (op : UnaryOp) (h : Lighter Expr.nodes c c') :
    Lighter Expr.nodes (.unary m op c) (.unary m op c') :=
  h.map 0 fun c => by simp [Expr.nodes, Expr.isIndex, Expr.isMissing]

theorem binary (m : Mark) (op : BinaryOp) (h : Lighter Expr.nodes c c') {d d' : Expr}
    (h' : Lighter Expr.nodes d d') : Lighter Expr.nodes (.binary m op c d) (.binary m op c' d') :=
  h.map₂ 0 (fun c d => by simp [Expr.nodes, Expr.isIndex, Expr.isMissing]) h'

theorem member (m : Mark) (name : String) (h : Lighter Expr.nodes c c') :
    Lighter Expr.nodes (.member m c name) (.member m c' name) :=
  h.map (f := (Expr.member m · name)) 0 fun c => by
    simp [Expr.nodes, Expr.isIndex, Expr.isMissing]

theorem cons (h : Lighter Expr.nodes c c') (h' : Lighter Expr.nodesOfAll es es') :
    Lighter Expr.nodesOfAll (c :: es) (c' :: es') :=
  h.map₂ 0 (fun c es => by simp [Expr.nodesOfAll]) h'

theorem some (h : Lighter Expr.nodesOfAll es es') :
    Lighter Expr.nodesOfPart (some es) (some es') :=
  h.map 0 fun es => by simp [Expr.nodesOfPart]

theorem call (m : Mark) (h : Lighter Expr.nodes c c') (h' : Lighter Expr.nodesOfAll es es') :
    Lighter Expr.nodes (.call m c es) (.call m c' es') :=
  h.map₂ 0 (fun c es => by simp [Expr.nodes, Expr.isIndex, Expr.isMissing]) h'

theorem index (m : Mark) (h : Lighter Expr.nodes c c') (h' : Lighter Expr.nodesOfAll es es') :
    Lighter Expr.nodes (.index m c es) (.index m c' es') :=
  h.map₂ 1 (fun c es => by simp [Expr.nodes, Expr.isIndex, Expr.isMissing]) h'

theorem new (m : Mark) (ty : TypeExpr) {args args' init init' : Option (List Expr)}
    (h : Lighter Expr.nodesOfPart args args') (h' : Lighter Expr.nodesOfPart init init') :
    Lighter Expr.nodes (.new m ty args init) (.new m ty args' init') :=
  h.map₂ 0 (fun a i => by simp [Expr.nodes, Expr.isIndex, Expr.isMissing]) h'

end Lighter

namespace Expr

/-! ### Trimmed trees

Trimming drops only the last element of an initializer, and only one that is missing.  So
it takes a missing operand away or changes nothing.
-/

theorem lighter_dropLastMissing (es : List Expr) : Lighter nodesOfAll es (dropLastMissing es) := by
  unfold dropLastMissing
  cases hlast : es.getLast? with
  | none => exact Or.inl (List.getLast?_eq_none_iff.mp hlast).symm
  | some last =>
    obtain ⟨before, rfl⟩ := List.getLast?_eq_some_iff.mp hlast
    cases hmissing : last.isMissing with
    | false => exact Or.inl (by simp [hmissing])
    | true =>
      refine Or.inr ?_
      have hpos : 0 < weight last.nodes := by
        rw [nodes_eq, weight_cons, hmissing, Bool.toNat_true]
        omega
      simpa [hmissing, nodesOfAll_eq] using hpos

theorem lighter_trimmedAll : ∀ {es : List Expr}, (∀ e ∈ es, Lighter nodes e e.trimmed) →
    Lighter nodesOfAll es (trimmedAll es) := by
  intro es
  induction es with
  | nil => intro _; exact .refl []
  | cons e rest ih =>
    intro h
    exact (h e (by simp)).cons (ih fun c hc => h c (by simp [hc]))

theorem lighter_trimmedPart {part : Option (List Expr)}
    (h : ∀ e ∈ part.getD [], Lighter nodes e e.trimmed) :
    Lighter nodesOfPart part (trimmedPart part) := by
  cases part with
  | none => exact .refl none
  | some es => exact (lighter_trimmedAll h).some

theorem lighter_map_dropLastMissing (part : Option (List Expr)) :
    Lighter nodesOfPart part (part.map dropLastMissing) := by
  cases part with
  | none => exact .refl none
  | some es => exact (lighter_dropLastMissing es).some

/-- **A trimmed tree is lighter, or the tree itself.** -/
theorem lighter_trimmed (e : Expr) : Lighter nodes e e.trimmed := by
  induction e using children_induction with
  | step e ih =>
    cases e with
    | missing m => exact .refl _
    | literal m value => exact .refl _
    | ident m name => exact .refl _
    | paren m inner => exact (ih inner (by simp [children])).paren m
    | unary m op operand => exact (ih operand (by simp [children])).unary m op
    | binary m op left right =>
      exact (ih left (by simp [children])).binary m op (ih right (by simp [children]))
    | member m receiver name => exact (ih receiver (by simp [children])).member m name
    | call m callee args =>
      refine (ih callee (by simp [children])).call m ?_
      exact lighter_trimmedAll fun c hc => ih c (by simp [children, hc])
    | index m receiver args =>
      refine (ih receiver (by simp [children])).index m ?_
      exact lighter_trimmedAll fun c hc => ih c (by simp [children, hc])
    | new m ty args init =>
      have hinit : Lighter nodesOfPart init (trimmedPart init) :=
        lighter_trimmedPart fun c hc => ih c (by simp [children, hc])
      refine Lighter.new m ty ?_ (hinit.trans (lighter_map_dropLastMissing _))
      exact lighter_trimmedPart fun c hc => ih c (by simp [children, hc])

end Expr

/-! ### Rewritten trees

The access of an expanded literal counts before and not afterwards, and all other nodes of
its construction stood in the literal already.
-/

namespace Desugar.Setting

variable {s : Setting} {k : Nat}

theorem weight_construct (container : String) (ty : Ty) (m : Mark) (elements : List Expr) :
    Expr.weight (Expr.construct container ty m elements).nodes
      = Expr.weight (elements.flatMap Expr.nodes) := by
  cases elements with
  | nil => rfl
  | cons first rest =>
    simp [Expr.construct, Expr.nodes, Expr.nodesOfPart, Expr.nodesOfAll_eq, Expr.isIndex,
      Expr.isMissing]

/-- A construction is lighter than the literal it stands for. -/
theorem Replaces.weight_lt {e e' : Expr} (h : s.Replaces k e e') :
    Expr.weight e'.nodes < Expr.weight e.nodes := by
  obtain ⟨site, elements, id, hj, -, rfl⟩ := h
  obtain ⟨m, receiver, args, shape, rfl, hshape, rfl, -⟩ := judge_eq_expand hj
  have hle := Expr.weight_le_of_sublist (Expr.elements_sublist_of_delimitedArgs? hshape)
  rw [weight_construct, Expr.nodes, Expr.nodesOfAll_eq, Expr.weight_cons, Expr.weight_append,
    Expr.isIndex, Bool.toNat_true]
  omega

theorem RewritesAll.lighter : ∀ {es es' : List Expr}, s.RewritesAll k es es' →
    (∀ e ∈ es, ∀ {e'}, s.Rewrites k e e' → Lighter Expr.nodes e e') →
    Lighter Expr.nodesOfAll es es' := by
  intro es
  induction es with
  | nil =>
    rintro es' rfl _
    exact .refl []
  | cons e rest ih =>
    rintro es' ⟨e', rest', he, hrest, rfl⟩ h
    exact (h e (by simp) he).cons (ih hrest fun c hc => h c (by simp [hc]))

theorem RewritesPart.lighter {part part' : Option (List Expr)} (hpart : s.RewritesPart k part part')
    (h : ∀ e ∈ part.getD [], ∀ {e'}, s.Rewrites k e e' → Lighter Expr.nodes e e') :
    Lighter Expr.nodesOfPart part part' := by
  cases part with
  | none =>
    obtain rfl : part' = none := hpart
    exact .refl none
  | some es =>
    obtain ⟨es', hes, rfl⟩ := hpart
    exact (hes.lighter h).some

/-- **A rewritten tree is lighter, or the tree itself.** -/
theorem Rewrites.lighter {e : Expr} : ∀ {e' : Expr}, s.Rewrites k e e' →
    Lighter Expr.nodes e e' := by
  induction e using Expr.children_induction with
  | step e ih =>
    intro e' h
    cases e with
    | missing m => exact Or.inl h
    | literal m value => exact Or.inl h
    | ident m name => exact Or.inl h
    | paren m inner =>
      obtain ⟨inner', hinner, rfl⟩ := h
      exact (ih inner (by simp [Expr.children]) hinner).paren m
    | unary m op operand =>
      obtain ⟨operand', hoperand, rfl⟩ := h
      exact (ih operand (by simp [Expr.children]) hoperand).unary m op
    | binary m op left right =>
      obtain ⟨left', right', hleft, hright, rfl⟩ := h
      have hl := ih left (by simp [Expr.children]) hleft
      exact hl.binary m op (ih right (by simp [Expr.children]) hright)
    | member m receiver name =>
      obtain ⟨receiver', hreceiver, rfl⟩ := h
      exact (ih receiver (by simp [Expr.children]) hreceiver).member m name
    | call m callee args =>
      obtain ⟨callee', args', hcallee, hargs, rfl⟩ := h
      refine (ih callee (by simp [Expr.children]) hcallee).call m ?_
      exact hargs.lighter fun c hc => ih c (by simp [Expr.children, hc])
    | index m receiver args =>
      rcases h with h | ⟨receiver', args', hreceiver, hargs, rfl⟩
      · exact Or.inr h.weight_lt
      · refine (ih receiver (by simp [Expr.children]) hreceiver).index m ?_
        exact hargs.lighter fun c hc => ih c (by simp [Expr.children, hc])
    | new m ty args init =>
      obtain ⟨args', init', hargs, hinit, rfl⟩ := h
      refine Lighter.new m ty ?_ ?_
      · exact hargs.lighter fun c hc => ih c (by simp [Expr.children, hc])
      · exact hinit.lighter fun c hc => ih c (by simp [Expr.children, hc])

end Desugar.Setting

/-! ### Statements -/

namespace Stmt

/-- The nodes of several statements, one after the other. -/
def nodesOfAll (stmts : List Stmt) : List Expr := Expr.nodesOfAll (rootsOfAll stmts)

variable {R : Expr → Expr → Prop}

theorem relatedAll_lighter : ∀ {stmts stmts' : List Stmt}, RelatedAll R stmts stmts' →
    (∀ p ∈ stmts, ∀ {p'}, Related R p p' → Lighter nodes p p') →
    Lighter nodesOfAll stmts stmts' := by
  intro stmts
  induction stmts with
  | nil =>
    rintro stmts' rfl _
    exact .refl []
  | cons first rest ih =>
    rintro stmts' ⟨first', rest', hfirst, hrest, rfl⟩ h
    refine (h first (by simp) hfirst).map₂ 0 (fun first rest => ?_)
      (ih hrest fun p hp => h p (by simp [hp]))
    simp [nodesOfAll, rootsOfAll, nodes, Expr.nodesOfAll_eq]

/-- A statement whose expressions become lighter or stay does so too. -/
theorem Related.lighter (hR : ∀ {e e'}, R e e' → Lighter Expr.nodes e e') {st : Stmt} :
    ∀ {st' : Stmt}, Related R st st' → Lighter nodes st st' := by
  induction st using parts_induction with
  | step st ih =>
    intro st' h
    cases st with
    | declare ty name init line =>
      obtain ⟨init', hinit, rfl⟩ := h
      cases init with
      | none =>
        obtain rfl : init' = none := hinit
        exact .refl _
      | some e =>
        obtain ⟨e', he, rfl⟩ := hinit
        refine (hR he).map (f := fun e => declare ty name (some e) line) 0 fun e => ?_
        simp [nodes, roots, Expr.nodesOfAll]
    | assign target value =>
      obtain ⟨target', value', htarget, hvalue, rfl⟩ := h
      refine (hR htarget).map₂ 0 (fun t v => ?_) (hR hvalue)
      simp [nodes, roots, Expr.nodesOfAll]
    | expr value =>
      obtain ⟨value', hvalue, rfl⟩ := h
      refine (hR hvalue).map 0 fun v => ?_
      simp [nodes, roots, Expr.nodesOfAll]
    | block stmts =>
      obtain ⟨stmts', hall, rfl⟩ := h
      refine (relatedAll_lighter hall fun p hp => ih p (by simpa [parts] using hp)).map 0
        fun stmts => ?_
      simp [nodes, nodesOfAll, roots]
    | branch cond thenBranch elseBranch =>
      obtain ⟨cond', thenBranch', elseBranch', hcond, hthen, helse, rfl⟩ := h
      -- The condition and the first branch change together, then the alternative.
      have hhead : ∀ other, Lighter nodes (branch cond thenBranch other)
          (branch cond' thenBranch' other) := by
        intro other
        refine (hR hcond).map₂ (f := (branch · · other))
          (Expr.weight (Expr.nodesOfAll (other.toList.flatMap roots))) (fun c t => ?_)
          (ih thenBranch (by simp [parts]) hthen)
        simp only [nodes, roots_branch, Expr.nodesOfAll_eq, List.flatMap_cons, List.flatMap_append,
          Expr.weight_append]
        omega
      cases elseBranch with
      | none =>
        obtain rfl : elseBranch' = none := helse
        exact hhead none
      | some other =>
        obtain ⟨other', hother, rfl⟩ := helse
        refine (hhead (some other)).trans ?_
        refine (ih other (by simp [parts]) hother).map
          (f := fun other => branch cond' thenBranch' (some other))
          (Expr.weight (cond'.nodes ++ thenBranch'.nodes)) fun other => ?_
        simp [nodes, roots_branch, Expr.nodesOfAll_eq, Nat.add_assoc]
    | foreach ty name iter body =>
      obtain ⟨iter', body', hiter, hbody, rfl⟩ := h
      refine (hR hiter).map₂ 0 (fun i b => ?_) (ih body (by simp [parts]) hbody)
      simp [nodes, roots, Expr.nodesOfAll]

theorem RelatedAll.lighter (hR : ∀ {e e'}, R e e' → Lighter Expr.nodes e e')
    {stmts stmts' : List Stmt} (h : RelatedAll R stmts stmts') :
    Lighter nodesOfAll stmts stmts' :=
  relatedAll_lighter h fun _ _ => Related.lighter hR

end Stmt

end ListSugar
