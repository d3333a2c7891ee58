/-
What is known of a tree that was read.

A tree that spans a stretch of tokens is well formed, its tokens are the ones of the
stretch, and where its last operand is missing a token stands behind it that can end
an operand.
-/
import ListSugar.Proofs.Grammar.Exprs

namespace ListSugar

namespace Expr

open TokenStream

/-! ### The token behind a tree -/

/-- A missing last operand was read in front of a token that ends operands. -/
theorem Spans.endsOperand_of_endsMissing {e : Expr} : ∀ {s t : TokenStream}, e.Spans s t →
    e.endsMissing = true → t.current.token.endsOperand = true := by
  induction e using children_induction with
  | step e ih =>
    intro s t h hends
    cases e with
    | missing m =>
      obtain ⟨hcurrent, -, rfl⟩ := h
      exact hcurrent
    | unary m op operand =>
      obtain ⟨-, -, u, hspan, -, rfl⟩ := h
      rw [current_numbered]
      exact ih operand (by simp [children]) hspan hends
    | binary m op left right =>
      obtain ⟨-, -, u, v, -, -, hspan, -, rfl⟩ := h
      rw [current_numbered]
      exact ih right (by simp [children]) hspan hends
    | _ => cases hends

theorem isMissing_eq_false_of_spans {e : Expr} {s t : TokenStream} (h : e.Spans s t)
    (ht : t.current.token.endsOperand = false) : e.isMissing = false := by
  cases e with
  | missing m =>
    have := h.endsOperand_of_endsMissing rfl
    rw [ht] at this
    cases this
  | _ => rfl

/-! ### Well-formed trees

Each condition of a readable node is seen when the node is read, and `Spans` records what
was seen.  Going through the nodes once is enough for every property of this kind.
-/

theorem loneMissing_of_enclosed {close : Symbol} {es : List Expr} {s t : TokenStream}
    (h : Enclosed close es (fun s t => SpansAll es s t) s t) : loneMissing es = false := by
  rcases h with ⟨rfl, -, -⟩ | ⟨hclose, u, hes, hu, -⟩
  · rfl
  · match es, hes with
    | [e], ⟨v, hspan, hlast⟩ =>
      rcases hlast with ⟨-, rfl⟩ | ⟨-, hrest⟩
      · cases e with
        | missing m =>
          -- Nothing was used up, so the closing sign stood here from the start.
          obtain ⟨-, -, rfl⟩ := hspan
          exact absurd hu hclose
        | _ => rfl
      · exact hrest.elim
    | _ :: _ :: _, _ => rfl

theorem spansAll_forall {P : Expr → Prop} : ∀ {es : List Expr} {s t : TokenStream},
    SpansAll es s t → (∀ e ∈ es, ∀ {s t}, e.Spans s t → P e) → ∀ e ∈ es, P e := by
  intro es
  induction es with
  | nil => intro s t h _ e he; cases he
  | cons first rest ih =>
    rintro s t ⟨u, hfirst, hrest⟩ hP e he
    rcases List.mem_cons.mp he with rfl | he
    · exact hP e (by simp) hfirst
    · rcases hrest with ⟨rfl, -⟩ | ⟨-, hrest⟩
      · cases he
      · exact ih hrest (fun e' he' => hP e' (by simp [he'])) e he

theorem enclosed_forall {P : Expr → Prop} {close : Symbol} {es : List Expr} {s t : TokenStream}
    (h : Enclosed close es (fun s t => SpansAll es s t) s t)
    (hP : ∀ e ∈ es, ∀ {s t}, e.Spans s t → P e) : ∀ e ∈ es, P e := by
  rcases h with ⟨rfl, -, -⟩ | ⟨-, u, hes, -, -⟩
  · intro e he
    cases he
  · exact spansAll_forall hes hP

theorem spansElements_forall {P : Expr → Prop} : ∀ {es : List Expr} {s t : TokenStream},
    SpansElements es s t → (∀ e ∈ es, ∀ {s t}, e.Spans s t → P e) → ∀ e ∈ es, P e := by
  intro es
  induction es with
  | nil => intro s t _ _ e he; cases he
  | cons first rest ih =>
    rintro s t ⟨-, u, hfirst, hrest⟩ hP e he
    rcases List.mem_cons.mp he with rfl | he
    · exact hP e (by simp) hfirst
    · rcases hrest with ⟨rfl, -⟩ | ⟨-, hrest⟩
      · cases he
      · exact ih hrest (fun e' he' => hP e' (by simp [he'])) e he

/-- Every part of a tree that was read was itself read, the receiver of a bare bracket
apart. -/
theorem Spans.forall_children {P : Expr → Prop} {e : Expr} {s t : TokenStream}
    (h : e.Spans s t) (hmissing : ∀ m, P (.missing m))
    (hP : ∀ c ∈ e.children, ∀ {s t}, c.Spans s t → P c) : ∀ c ∈ e.children, P c := by
  cases e with
  | missing m => intro c hc; cases hc
  | literal m value => intro c hc; cases hc
  | ident m name => intro c hc; cases hc
  | paren m inner =>
    obtain ⟨-, u, hspan, -⟩ := h
    intro c hc
    obtain rfl : c = inner := by simpa [children] using hc
    exact hP c hc hspan
  | unary m op operand =>
    obtain ⟨-, -, u, hspan, -⟩ := h
    intro c hc
    obtain rfl : c = operand := by simpa [children] using hc
    exact hP c hc hspan
  | binary m op left right =>
    obtain ⟨-, -, u, v, hleft, -, hright, -⟩ := h
    intro c hc
    rcases (by simpa [children] using hc : c = left ∨ c = right) with rfl | rfl
    · exact hP c hc hleft
    · exact hP c hc hright
  | member m receiver name =>
    obtain ⟨-, u, hspan, -⟩ := h
    intro c hc
    obtain rfl : c = receiver := by simpa [children] using hc
    exact hP c hc hspan
  | call m callee args =>
    obtain ⟨-, u, v, hcallee, -, hargs, -⟩ := h
    intro c hc
    rcases (by simpa [children] using hc : c = callee ∨ c ∈ args) with rfl | hmem
    · exact hP c hc hcallee
    · exact enclosed_forall hargs (fun e he => hP e (by simp [children, he])) c hmem
  | index m receiver args =>
    obtain ⟨-, u, v, hreceiver, -, hargs, -⟩ := h
    intro c hc
    rcases (by simpa [children] using hc : c = receiver ∨ c ∈ args) with rfl | hmem
    · rcases hreceiver with hspan | ⟨rfl, -⟩
      · exact hP c hc hspan
      · exact hmissing _
    · exact enclosed_forall hargs (fun e he => hP e (by simp [children, he])) c hmem
  | new m ty args init =>
    obtain ⟨-, -, u, v, w, -, hargs, hinit, -⟩ := h
    intro c hc
    rcases (by simpa [children] using hc : c ∈ args.getD [] ∨ c ∈ init.getD []) with hmem | hmem
    · cases args with
      | none => simp at hmem
      | some es =>
        exact enclosed_forall hargs.2 (fun e he => hP e (by simp [children, he])) c hmem
    · cases init with
      | none => simp at hmem
      | some es =>
        obtain ⟨-, x, hes, -⟩ := hinit
        exact spansElements_forall hes (fun e he => hP e (by simp [children, he])) c hmem

/-- What holds of missing nodes and of every node that was read holds of all nodes of a
tree that was read. -/
theorem Spans.forall_nodes {P : Expr → Prop} (hmissing : ∀ m, P (.missing m))
    (hP : ∀ {e s t}, e.Spans s t → P e) {e : Expr} :
    ∀ {s t : TokenStream}, e.Spans s t → ∀ n ∈ e.nodes, P n := by
  induction e using children_induction with
  | step e ih =>
    intro s t h
    refine forall_nodes_iff.mpr ⟨hP h, ?_⟩
    refine h.forall_children ?_ fun c hc {s t} hspan => ih c hc hspan
    intro m n hn
    obtain rfl : n = .missing m := by simpa [nodes] using hn
    exact hmissing m

theorem Spans.formed {e : Expr} {s t : TokenStream} (h : e.Spans s t) : e.Formed := by
  cases e with
  | unary m op operand =>
    obtain ⟨-, hrank, -⟩ := h
    exact hrank
  | binary m op left right =>
    obtain ⟨hleft, hright, u, v, hspan, hop, -⟩ := h
    refine ⟨hleft, hright, fun hends => ?_⟩
    rw [← hop]
    exact hspan.endsOperand_of_endsMissing hends
  | member m receiver name =>
    obtain ⟨hrank, u, hspan, hdot, -⟩ := h
    exact ⟨hrank, isMissing_eq_false_of_spans hspan (by rw [hdot]; rfl)⟩
  | call m callee args =>
    obtain ⟨hrank, u, v, hspan, hparen, hargs, -⟩ := h
    exact ⟨hrank, isMissing_eq_false_of_spans hspan (by rw [hparen]; rfl),
      loneMissing_of_enclosed hargs⟩
  | index m receiver args =>
    obtain ⟨hrank, u, v, -, -, hargs, -⟩ := h
    exact ⟨hrank, loneMissing_of_enclosed hargs⟩
  | new m ty args init =>
    obtain ⟨-, hpart, u, v, w, -, hargs, -⟩ := h
    refine ⟨hpart, ?_⟩
    cases args with
    | none => rfl
    | some es => exact loneMissing_of_enclosed hargs.2
  | _ => exact trivial

/-- **A tree that was read is well formed.** -/
theorem Spans.wellFormed {e : Expr} {s t : TokenStream} (h : e.Spans s t) : e.WellFormed :=
  h.forall_nodes (fun _ => trivial) Spans.formed

theorem Spans.resolvedNode {e : Expr} {s t : TokenStream} (h : e.Spans s t) :
    e.ResolvedNode := by
  cases e with
  | new m ty args init =>
    obtain ⟨-, -, u, v, w, hty, -⟩ := h
    exact hty.2
  | _ => exact trivial

/-- The types that a tree was read with are known in every part. -/
theorem Spans.resolved {e : Expr} {s t : TokenStream} (h : e.Spans s t) : e.Resolved :=
  h.forall_nodes (fun _ => trivial) Spans.resolvedNode

/-! ### The tokens of a tree that was read -/

theorem spellsRest_of_spellsAll {e : Expr} {rest : List Expr} {ts : List Token}
    (h : SpellsAll (e :: rest) ts) : SpellsRest (e :: rest) (.symbol .comma :: ts) := by
  obtain ⟨us, vs, he, hrest, rfl⟩ := h
  exact ⟨us, vs, he, hrest, rfl⟩

/-- The tokens between two streams write the tree that lies between them. -/
def SpelledBetween (e : Expr) (s t : TokenStream) : Prop :=
  ∃ ts, e.Spells ts ∧ s.kinds = ts ++ t.kinds

theorem spansAll_spells : ∀ {es : List Expr} {s t : TokenStream}, SpansAll es s t →
    (∀ e ∈ es, ∀ {s t}, e.Spans s t → e.SpelledBetween s t) →
    ∃ ts, SpellsAll es ts ∧ s.kinds = ts ++ t.kinds := by
  intro es
  induction es with
  | nil => intro s t h _; exact h.elim
  | cons first rest ih =>
    rintro s t ⟨u, hfirst, hrest⟩ hspell
    obtain ⟨us, hus, hkinds⟩ := hspell first (by simp) hfirst
    rcases hrest with ⟨rfl, rfl⟩ | ⟨hcomma, hrest⟩
    · exact ⟨us, ⟨us, [], hus, rfl, by simp⟩, hkinds⟩
    · obtain ⟨vs, hvs, hkinds'⟩ := ih hrest fun e he => hspell e (by simp [he])
      cases rest with
      | nil => exact hrest.elim
      | cons second others =>
        refine ⟨us ++ .symbol .comma :: vs,
          ⟨us, .symbol .comma :: vs, hus, spellsRest_of_spellsAll hvs, rfl⟩, ?_⟩
        rw [hkinds, kinds_of_current hcomma (by simp), hkinds', List.append_assoc]
        rfl

theorem enclosed_spells {close : Symbol} {es : List Expr} {s t : TokenStream}
    (h : Enclosed close es (fun s t => SpansAll es s t) s t)
    (hspell : ∀ e ∈ es, ∀ {s t}, e.Spans s t → e.SpelledBetween s t) :
    ∃ ts, SpellsAll es ts ∧ s.kinds = ts ++ .symbol close :: t.kinds := by
  rcases h with ⟨rfl, hclose, rfl⟩ | ⟨-, u, hes, hclose, rfl⟩
  · exact ⟨[], rfl, kinds_of_current hclose (by simp)⟩
  · obtain ⟨ts, hts, hkinds⟩ := spansAll_spells hes hspell
    refine ⟨ts, hts, ?_⟩
    rw [hkinds, kinds_of_current hclose (by simp)]

/-- Elements in front of a closing brace: only a last element that is there can do
without a comma. -/
theorem spansElements_spells : ∀ {es : List Expr} {s t : TokenStream}, SpansElements es s t →
    t.current.token = .symbol .rBrace →
    (∀ e ∈ es, ∀ {s t}, e.Spans s t → e.SpelledBetween s t) →
    ∃ ts, SpellsAll es ts ∧
      ((s.kinds = ts ++ t.kinds ∧ ∀ last ∈ es.getLast?, last.isMissing = false) ∨
        (s.kinds = ts ++ .symbol .comma :: t.kinds ∧ es ≠ [])) := by
  intro es
  induction es with
  | nil =>
    rintro s t rfl _ _
    exact ⟨[], rfl, Or.inl ⟨rfl, by simp⟩⟩
  | cons first rest ih =>
    rintro s t ⟨hbrace, u, hfirst, hrest⟩ hclose hspell
    obtain ⟨us, hus, hkinds⟩ := hspell first (by simp) hfirst
    rcases hrest with ⟨rfl, rfl⟩ | ⟨hcomma, hrest⟩
    · refine ⟨us, ⟨us, [], hus, rfl, by simp⟩, Or.inl ⟨hkinds, ?_⟩⟩
      intro last hlast
      obtain rfl : first = last := by simpa using hlast
      cases first with
      | missing m =>
        obtain ⟨-, -, rfl⟩ := hfirst
        exact absurd hclose hbrace
      | _ => rfl
    · obtain ⟨vs, hvs, hkinds'⟩ := ih hrest hclose fun e he => hspell e (by simp [he])
      have hstep := kinds_of_current hcomma (by simp)
      cases rest with
      | nil =>
        obtain rfl : vs = [] := hvs
        refine ⟨us, ⟨us, [], hus, rfl, by simp⟩, Or.inr ⟨?_, by simp⟩⟩
        obtain rfl : t = u.advance := hrest
        rw [hkinds, hstep]
      | cons second others =>
        refine ⟨us ++ .symbol .comma :: vs,
          ⟨us, .symbol .comma :: vs, hus, spellsRest_of_spellsAll hvs, rfl⟩, ?_⟩
        rcases hkinds' with ⟨hk, hlast⟩ | ⟨hk, -⟩
        · refine Or.inl ⟨?_, by simpa using hlast⟩
          rw [hkinds, hstep, hk, List.append_assoc]
          rfl
        · refine Or.inr ⟨?_, by simp⟩
          rw [hkinds, hstep, hk, List.append_assoc]
          rfl

theorem spansArguments_spells {args : Option (List Expr)} {s t : TokenStream}
    (h : SpansArguments args s t)
    (hspell : ∀ e ∈ args.getD [], ∀ {s t}, e.Spans s t → e.SpelledBetween s t) :
    ∃ ts, SpellsArguments args ts ∧ s.kinds = ts ++ t.kinds := by
  cases args with
  | none =>
    obtain ⟨-, rfl⟩ := h
    exact ⟨[], rfl, rfl⟩
  | some es =>
    obtain ⟨hparen, hes⟩ := h
    obtain ⟨ts, hts, hkinds⟩ := enclosed_spells hes hspell
    refine ⟨.symbol .lParen :: (ts ++ [.symbol .rParen]), ⟨ts, hts, rfl⟩, ?_⟩
    rw [kinds_of_current hparen (by simp), hkinds]
    simp

theorem spansInitializer_spells {init : Option (List Expr)} {s t : TokenStream}
    (h : SpansInitializer init s t)
    (hspell : ∀ e ∈ init.getD [], ∀ {s t}, e.Spans s t → e.SpelledBetween s t) :
    ∃ ts, SpellsInitializer init ts ∧ s.kinds = ts ++ t.kinds := by
  cases init with
  | none =>
    obtain ⟨-, rfl⟩ := h
    exact ⟨[], rfl, rfl⟩
  | some es =>
    obtain ⟨hbrace, u, hes, hclose, rfl⟩ := h
    obtain ⟨us, hus, hkinds⟩ := spansElements_spells hes hclose hspell
    have hopen := kinds_of_current hbrace (by simp)
    have hshut := kinds_of_current hclose (by simp)
    rcases hkinds with ⟨hk, hlast⟩ | ⟨hk, hne⟩
    · refine ⟨_, ⟨us, hus, Or.inl ⟨rfl, hlast⟩⟩, ?_⟩
      rw [hopen, hk, hshut]
      simp
    · refine ⟨_, ⟨us, hus, Or.inr ⟨rfl, hne⟩⟩, ?_⟩
      rw [hopen, hk, hshut]
      simp

/-- **The tokens that a tree was read from write the tree.** -/
theorem Spans.spells {e : Expr} : ∀ {s t : TokenStream}, e.Spans s t →
    e.SpelledBetween s t := by
  induction e using children_induction with
  | step e ih =>
    intro s t h
    cases e with
    | missing m =>
      obtain ⟨-, -, rfl⟩ := h
      exact ⟨[], rfl, rfl⟩
    | literal m value =>
      obtain ⟨hcurrent, -, rfl⟩ := h
      exact ⟨[value.token], rfl, kinds_of_current hcurrent (by cases value <;> simp [Literal.token])⟩
    | ident m name =>
      obtain ⟨hcurrent, -, rfl⟩ := h
      exact ⟨[.ident name], rfl, kinds_of_current hcurrent (by simp)⟩
    | paren m inner =>
      obtain ⟨hopen, u, hinner, hclose, -, rfl⟩ := h
      obtain ⟨us, hus, hkinds⟩ := ih inner (by simp [children]) hinner
      refine ⟨_, ⟨us, hus, rfl⟩, ?_⟩
      rw [kinds_of_current hopen (by simp), hkinds, kinds_of_current hclose (by simp)]
      simp
    | unary m op operand =>
      obtain ⟨hop, -, u, hspan, -, rfl⟩ := h
      obtain ⟨us, hus, hkinds⟩ := ih operand (by simp [children]) hspan
      refine ⟨_, ⟨us, hus, rfl⟩, ?_⟩
      rw [kinds_of_current hop (by simp), hkinds]
      rfl
    | binary m op left right =>
      obtain ⟨-, -, u, v, hleft, hop, hright, -, rfl⟩ := h
      obtain ⟨us, hus, hkinds⟩ := ih left (by simp [children]) hleft
      obtain ⟨vs, hvs, hkinds'⟩ := ih right (by simp [children]) hright
      refine ⟨_, ⟨us, vs, hus, hvs, rfl⟩, ?_⟩
      rw [hkinds, kinds_of_current hop (by simp), hkinds']
      simp
    | member m receiver name =>
      obtain ⟨-, u, hspan, hdot, hname, -, rfl⟩ := h
      obtain ⟨us, hus, hkinds⟩ := ih receiver (by simp [children]) hspan
      refine ⟨_, ⟨us, hus, rfl⟩, ?_⟩
      rw [hkinds, kinds_of_current hdot (by simp), kinds_of_current hname (by simp)]
      simp
    | call m callee args =>
      obtain ⟨-, u, v, hspan, hopen, hargs, -, rfl⟩ := h
      obtain ⟨us, hus, hkinds⟩ := ih callee (by simp [children]) hspan
      obtain ⟨vs, hvs, hkinds'⟩ := enclosed_spells hargs fun e he => ih e (by simp [children, he])
      refine ⟨_, ⟨us, vs, hus, hvs, rfl⟩, ?_⟩
      rw [hkinds, kinds_of_current hopen (by simp), hkinds']
      simp
    | index m receiver args =>
      obtain ⟨-, u, v, hreceiver, hopen, hargs, -, rfl⟩ := h
      obtain ⟨us, hus, hkinds⟩ : receiver.SpelledBetween s u := by
        rcases hreceiver with hspan | ⟨rfl, rfl⟩
        · exact ih receiver (by simp [children]) hspan
        · exact ⟨[], rfl, rfl⟩
      obtain ⟨vs, hvs, hkinds'⟩ := enclosed_spells hargs fun e he => ih e (by simp [children, he])
      refine ⟨_, ⟨us, vs, hus, hvs, rfl⟩, ?_⟩
      rw [hkinds, kinds_of_current hopen (by simp), hkinds']
      simp
    | new m ty args init =>
      obtain ⟨hnew, -, u, v, w, hty, hargs, hinit, -, rfl⟩ := h
      obtain ⟨us, hus, hkinds⟩ :=
        spansArguments_spells hargs fun e he => ih e (by simp [children, he])
      obtain ⟨vs, hvs, hkinds'⟩ :=
        spansInitializer_spells hinit fun e he => ih e (by simp [children, he])
      refine ⟨_, ⟨us, vs, hus, hvs, rfl⟩, ?_⟩
      rw [kinds_of_current hnew (by simp), hty.1.kinds, hkinds, hkinds']
      simp

theorem Spans.length_le {e : Expr} {s t : TokenStream} (h : e.Spans s t) :
    t.kinds.length ≤ s.kinds.length := by
  obtain ⟨ts, -, hkinds⟩ := h.spells
  rw [hkinds, List.length_append]
  omega

end Expr

end ListSugar
