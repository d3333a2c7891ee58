/-
The numbers of a tree that was read.

A node is numbered when it is complete, so the parts of a node have smaller numbers than
the node, and earlier parts smaller ones than later parts.  Listed in that order, the
parts of every node before the node, the numbers of a tree are exactly those given out
while it was read.
-/
import Mathlib.Data.List.Perm.Basic
import ListSugar.Proofs.Grammar.Statements

namespace ListSugar

namespace Expr

/-! ### Nodes after their parts -/

mutual

/-- The nodes of a tree, each after its parts. -/
def postorder : Expr → List Expr
  | .missing m => [.missing m]
  | .literal m value => [.literal m value]
  | .ident m name => [.ident m name]
  | .paren m inner => inner.postorder ++ [.paren m inner]
  | .unary m op operand => operand.postorder ++ [.unary m op operand]
  | .binary m op left right => left.postorder ++ right.postorder ++ [.binary m op left right]
  | .member m receiver name => receiver.postorder ++ [.member m receiver name]
  | .call m callee args => callee.postorder ++ postorderOfAll args ++ [.call m callee args]
  | .index m receiver args => receiver.postorder ++ postorderOfAll args ++ [.index m receiver args]
  | .new m ty args init =>
    postorderOfPart args ++ postorderOfPart init ++ [.new m ty args init]

/-- The nodes of several trees, one tree after the other. -/
def postorderOfAll : List Expr → List Expr
  | [] => []
  | e :: rest => e.postorder ++ postorderOfAll rest

/-- The nodes of one part of a construction. -/
def postorderOfPart : Option (List Expr) → List Expr
  | none => []
  | some es => postorderOfAll es

end

theorem postorderOfAll_eq (es : List Expr) : postorderOfAll es = es.flatMap postorder := by
  induction es with
  | nil => rfl
  | cons e rest ih => rw [postorderOfAll, ih, List.flatMap_cons]

theorem postorderOfPart_eq (part : Option (List Expr)) :
    postorderOfPart part = (part.getD []).flatMap postorder := by
  cases part with
  | none => rfl
  | some es => exact postorderOfAll_eq es

theorem postorder_eq (e : Expr) : e.postorder = e.children.flatMap postorder ++ [e] := by
  cases e <;> simp [postorder, children, postorderOfAll_eq, postorderOfPart_eq]

/-- Both orders list the same nodes. -/
theorem postorder_perm (e : Expr) : e.postorder.Perm e.nodes := by
  induction e using children_induction with
  | step e ih =>
    rw [postorder_eq, nodes_eq]
    refine (List.perm_append_singleton _ _).trans (.cons _ ?_)
    exact List.Perm.flatMap_left _ ih

/-! ### The numbers given out between two streams

Numbers are given out one after the other, so those between two streams are a range.
Ranges that follow each other make up one range, and a node takes the next number behind
those of its parts.
-/

/-- The numbers given out between the streams `s` and `t`, in order. -/
def Numbers (ids : List Nat) (s t : TokenStream) : Prop :=
  ∃ k, t.nextId = s.nextId + k ∧ ids = List.range' s.nextId k

theorem Numbers.none {s t : TokenStream} (h : t.nextId = s.nextId) : Numbers [] s t :=
  ⟨0, h, rfl⟩

theorem Numbers.append {ids ids' : List Nat} {s t u : TokenStream} (h : Numbers ids s t)
    (h' : Numbers ids' t u) : Numbers (ids ++ ids') s u := by
  obtain ⟨k, hk, rfl⟩ := h
  obtain ⟨k', hk', rfl⟩ := h'
  refine ⟨k + k', by omega, ?_⟩
  rw [hk, List.range'_append_1]

/-- The numbers of several trees, one tree after the other. -/
def idsOf (es : List Expr) : List Nat := (es.flatMap postorder).map id

theorem idsOf_cons (e : Expr) (es : List Expr) :
    idsOf (e :: es) = e.postorder.map id ++ idsOf es := by
  simp [idsOf]

theorem idsOf_singleton (e : Expr) : idsOf [e] = e.postorder.map id := by
  simp [idsOf]

theorem idsOf_append (es es' : List Expr) : idsOf (es ++ es') = idsOf es ++ idsOf es' := by
  simp [idsOf]

/-- A node that is complete takes the next number. -/
theorem Numbers.node {e : Expr} {s t : TokenStream} (h : Numbers (idsOf e.children) s t)
    (hid : e.id = t.nextId) : Numbers (e.postorder.map id) s t.numbered := by
  rw [postorder_eq, List.map_append]
  exact h.append ⟨1, rfl, by simp [hid]⟩

/-- The stream moves without giving out a number. -/
theorem Numbers.congr {ids : List Nat} {s s' t t' : TokenStream} (h : Numbers ids s t)
    (hs : s'.nextId = s.nextId) (ht : t'.nextId = t.nextId) : Numbers ids s' t' := by
  obtain ⟨k, hk, rfl⟩ := h
  exact ⟨k, by omega, by rw [hs]⟩

/-! ### Trees that were read -/

/-- The numbers of the tree were given out between the streams. -/
def NumberedBetween (e : Expr) (s t : TokenStream) : Prop := Numbers (e.postorder.map id) s t

theorem spansAll_numbers : ∀ {es : List Expr} {s t : TokenStream}, SpansAll es s t →
    (∀ e ∈ es, ∀ {s t}, e.Spans s t → e.NumberedBetween s t) →
    Numbers (idsOf es) s t := by
  intro es
  induction es with
  | nil =>
    intro s t h _
    exact absurd h not_false
  | cons e rest ih =>
    intro s t h hnum
    obtain ⟨u, he, hrest⟩ := h
    rw [idsOf_cons]
    have hfirst := hnum e (by simp) he
    rcases hrest with ⟨rfl, rfl⟩ | ⟨-, hrest⟩
    · exact hfirst.append (.none rfl)
    · exact hfirst.append ((ih hrest fun c hc => hnum c (by simp [hc])).congr rfl rfl)

theorem enclosed_numbers {close : Symbol} {es : List Expr} {s t : TokenStream}
    (h : Enclosed close es (fun s t => SpansAll es s t) s t)
    (hnum : ∀ e ∈ es, ∀ {s t}, e.Spans s t → e.NumberedBetween s t) :
    Numbers (idsOf es) s t := by
  rcases h with ⟨rfl, -, rfl⟩ | ⟨-, u, hall, -, rfl⟩
  · exact .none rfl
  · exact (spansAll_numbers hall hnum).congr rfl rfl

theorem spansElements_numbers : ∀ {es : List Expr} {s t : TokenStream}, SpansElements es s t →
    (∀ e ∈ es, ∀ {s t}, e.Spans s t → e.NumberedBetween s t) →
    Numbers (idsOf es) s t := by
  intro es
  induction es with
  | nil =>
    intro s t h _
    obtain rfl : t = s := h
    exact .none rfl
  | cons e rest ih =>
    intro s t h hnum
    obtain ⟨-, u, he, hrest⟩ := h
    rw [idsOf_cons]
    have hfirst := hnum e (by simp) he
    rcases hrest with ⟨rfl, rfl⟩ | ⟨-, hrest⟩
    · exact hfirst.append (.none rfl)
    · exact hfirst.append ((ih hrest fun c hc => hnum c (by simp [hc])).congr rfl rfl)

theorem spansArguments_numbers {part : Option (List Expr)} {s t : TokenStream}
    (h : SpansArguments part s t)
    (hnum : ∀ e ∈ part.getD [], ∀ {s t}, e.Spans s t → e.NumberedBetween s t) :
    Numbers (idsOf (part.getD [])) s t := by
  cases part with
  | none =>
    obtain ⟨-, rfl⟩ := h
    exact .none rfl
  | some es => exact (enclosed_numbers h.2 hnum).congr rfl rfl

theorem spansInitializer_numbers {part : Option (List Expr)} {s t : TokenStream}
    (h : SpansInitializer part s t)
    (hnum : ∀ e ∈ part.getD [], ∀ {s t}, e.Spans s t → e.NumberedBetween s t) :
    Numbers (idsOf (part.getD [])) s t := by
  cases part with
  | none =>
    obtain ⟨-, rfl⟩ := h
    exact .none rfl
  | some es =>
    obtain ⟨-, u, helements, -, rfl⟩ := h
    exact (spansElements_numbers helements hnum).congr rfl rfl

/-- **The numbers of a tree, parts first, are those given out while it was read.** -/
theorem Spans.numbers {e : Expr} : ∀ {s t : TokenStream}, e.Spans s t →
    e.NumberedBetween s t := by
  induction e using children_induction with
  | step e ih =>
    intro s t h
    cases e with
    | missing m =>
      obtain ⟨-, rfl, rfl⟩ := h
      exact Numbers.node (.none rfl) rfl
    | literal m value =>
      obtain ⟨-, rfl, rfl⟩ := h
      exact Numbers.node (.none rfl) rfl
    | ident m name =>
      obtain ⟨-, rfl, rfl⟩ := h
      exact Numbers.node (.none rfl) rfl
    | paren m inner =>
      obtain ⟨-, u, hinner, -, rfl, rfl⟩ := h
      refine Numbers.node ?_ rfl
      rw [children, idsOf_singleton]
      exact (ih inner (by simp [children]) hinner).congr rfl rfl
    | unary m op operand =>
      obtain ⟨-, -, u, hoperand, rfl, rfl⟩ := h
      refine Numbers.node ?_ rfl
      rw [children, idsOf_singleton]
      exact (ih operand (by simp [children]) hoperand).congr rfl rfl
    | binary m op left right =>
      obtain ⟨-, -, u, v, hleft, -, hright, rfl, rfl⟩ := h
      refine Numbers.node ?_ rfl
      rw [children, idsOf_cons, idsOf_singleton]
      exact (ih left (by simp [children]) hleft).append
        ((ih right (by simp [children]) hright).congr rfl rfl)
    | member m receiver name =>
      obtain ⟨-, u, hreceiver, -, -, rfl, rfl⟩ := h
      refine Numbers.node ?_ rfl
      rw [children, idsOf_singleton]
      exact (ih receiver (by simp [children]) hreceiver).congr rfl rfl
    | call m callee args =>
      obtain ⟨-, u, v, hcallee, -, hargs, rfl, rfl⟩ := h
      refine Numbers.node ?_ rfl
      rw [children, idsOf_cons]
      have hall := enclosed_numbers hargs fun c hc => ih c (by simp [children, hc])
      exact (ih callee (by simp [children]) hcallee).append (hall.congr rfl rfl)
    | index m receiver args =>
      obtain ⟨-, u, v, hreceiver, -, hargs, rfl, rfl⟩ := h
      refine Numbers.node ?_ rfl
      rw [children, idsOf_cons]
      have hall := enclosed_numbers hargs fun c hc => ih c (by simp [children, hc])
      refine Numbers.append (t := u) ?_ (hall.congr rfl rfl)
      -- The receiver of a bare bracket is numbered without being read.
      rcases hreceiver with hreceiver | ⟨rfl, rfl⟩
      · exact ih receiver (by simp [children]) hreceiver
      · exact Numbers.node (.none rfl) rfl
    | new m ty args init =>
      obtain ⟨-, -, u, v, w, hty, hargs, hinit, rfl, rfl⟩ := h
      refine Numbers.node ?_ rfl
      rw [children, idsOf_append]
      have hfirst := spansArguments_numbers hargs fun c hc => ih c (by simp [children, hc])
      have hsecond := spansInitializer_numbers hinit fun c hc => ih c (by simp [children, hc])
      exact (hfirst.append hsecond).congr hty.1.nextId_eq.symm rfl

end Expr

/-! ### Statements that were read -/

namespace Stmt

open ListSugar.Expr

theorem spansAll_numbers : ∀ {stmts : List Stmt} {s t : TokenStream}, SpansAll stmts s t →
    (∀ p ∈ stmts, ∀ {s t}, p.Spans s t → Numbers (idsOf p.roots) s t) →
    Numbers (idsOf (rootsOfAll stmts)) s t := by
  intro stmts
  induction stmts with
  | nil =>
    intro s t h _
    obtain rfl : t = s := h
    exact .none rfl
  | cons first rest ih =>
    intro s t h hnum
    obtain ⟨u, hfirst, hrest⟩ := h
    rw [rootsOfAll, idsOf_append]
    exact (hnum first (by simp) hfirst).append (ih hrest fun p hp => hnum p (by simp [hp]))

theorem SpansDeclared.nextId_eq {ty : Option TypeExpr} {s t : TokenStream}
    (h : SpansDeclared ty s t) : t.nextId = s.nextId := by
  cases ty with
  | none =>
    obtain ⟨-, rfl⟩ := h
    rfl
  | some ty => exact h.1.nextId_eq

/-- The numbers of the expressions of a statement are those given out while it was read. -/
theorem Spans.numbers {st : Stmt} : ∀ {s t : TokenStream}, st.Spans s t →
    Numbers (idsOf st.roots) s t := by
  induction st using parts_induction with
  | step st ih =>
    intro s t h
    cases st with
    | declare ty name init line =>
      obtain ⟨-, -, u, v, hty, -, hinit, -, rfl⟩ := h
      cases init with
      | none =>
        obtain rfl : v = u.advance := hinit
        exact .none hty.nextId_eq
      | some e =>
        rw [roots, Option.toList_some, idsOf_singleton]
        exact hinit.2.numbers.congr hty.nextId_eq.symm rfl
    | assign target value =>
      obtain ⟨-, u, v, htarget, -, hvalue, -, rfl⟩ := h
      rw [roots, idsOf_cons, idsOf_singleton]
      exact htarget.numbers.append (hvalue.numbers.congr rfl rfl)
    | expr value =>
      obtain ⟨-, u, hvalue, -, rfl⟩ := h
      rw [roots, idsOf_singleton]
      exact hvalue.numbers.congr rfl rfl
    | block stmts =>
      obtain ⟨-, u, hall, -, rfl⟩ := h
      exact (spansAll_numbers hall fun p hp => ih p (by simpa [parts] using hp)).congr rfl rfl
    | branch cond thenBranch elseBranch =>
      obtain ⟨-, -, u, v, hcond, -, hthen, helse⟩ := h
      rw [roots_branch, idsOf_cons, idsOf_append]
      refine (hcond.numbers.congr rfl rfl).append (Numbers.append
        ((ih thenBranch (by simp [parts]) hthen).congr rfl rfl) ?_)
      cases elseBranch with
      | none =>
        obtain ⟨-, rfl⟩ := helse
        exact .none rfl
      | some other =>
        have hother : Numbers (idsOf other.roots) v t :=
          (ih other (by simp [parts]) helse.2).congr rfl rfl
        simpa using hother
    | foreach ty name iter body =>
      obtain ⟨-, -, u, v, hty, -, -, hiter, -, hbody⟩ := h
      rw [roots, idsOf_cons]
      have hfirst : Numbers (iter.postorder.map Expr.id) s v :=
        hiter.numbers.congr hty.nextId_eq.symm rfl
      exact hfirst.append ((ih body (by simp [parts]) hbody).congr rfl rfl)

end Stmt

end ListSugar
