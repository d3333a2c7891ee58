/-
Every token of a reading, with its place.

`Spans` says how a tree lies between two streams; what can be seen of that from the
outside is the list of tokens used up and the place of each node.  `PlacedOn` says both
at once: the tokens are those of the tree, from left to right, and every node stands
where the first of its own tokens does.  A missing node has no tokens and stands where
the token behind it does, so the relation also takes the token that follows.

How operators group is read off the tree alone.  `Grouped` says it of one node by the
operators of its operands, and `ElseNearest` says of a statement that no choice in it
has an alternative that an inner choice could have taken.
-/
import ListSugar.Proofs.Grammar.Programs

namespace ListSugar

namespace TokenStream

/-! ### Tokens between two streams -/

/-- The tokens `ts` lie between the streams `s` and `t`. -/
structure Passes (s : TokenStream) (ts : List Located) (t : TokenStream) : Prop where
  unread : s.unread = ts ++ t.unread
  stop : t.stop = s.stop

theorem Passes.refl (s : TokenStream) : s.Passes [] s := ⟨rfl, rfl⟩

theorem Passes.trans {s t u : TokenStream} {ts us : List Located} (h : s.Passes ts t)
    (h' : t.Passes us u) : s.Passes (ts ++ us) u :=
  ⟨by rw [h.unread, h'.unread, List.append_assoc], h'.stop.trans h.stop⟩

theorem Passes.numbered {s t : TokenStream} {ts : List Located} (h : s.Passes ts t) :
    s.Passes ts t.numbered :=
  ⟨h.unread, h.stop⟩

theorem Passes.advance {s : TokenStream} {k : Token} (h : s.current.token = k)
    (hk : k ≠ .eof) : s.Passes [s.current] s.advance := by
  refine ⟨?_, rfl⟩
  unfold current at h ⊢
  unfold TokenStream.advance
  cases hs : s.unread with
  | nil =>
    rw [hs] at h
    exact absurd h.symm hk
  | cons first rest => rfl

/-- The current token is the first of those that lie ahead. -/
theorem Passes.current {s t : TokenStream} {ts : List Located} (h : s.Passes ts t) :
    s.current = ts.headD t.current := by
  unfold TokenStream.current
  rw [h.unread, h.stop]
  cases ts <;> rfl

theorem Takes.passes {s t : TokenStream} {ks : List Token} (h : s.Takes ks t) :
    ∃ ts, s.Passes ts t ∧ ts.map Located.token = ks := by
  obtain ⟨i, rfl⟩ := h.only
  refine ⟨s.unread.take i, ⟨(List.take_append_drop i s.unread).symm, rfl⟩, ?_⟩
  have hsplit : s.kinds = (s.unread.take i).map Located.token
      ++ (s.unread.drop i).map Located.token := by
    rw [← List.map_append, List.take_append_drop]
    rfl
  exact List.append_cancel_right (hsplit.symm.trans h.kinds)

end TokenStream

namespace Expr

open TokenStream

/-! ### Trees on their tokens

The streams are gone here, and with them the numbers.  What stays is the list of tokens
with their places, cut into the tokens of the parts and the signs between them.
-/

/-- What may stand between the last of the elements and the closing brace: a comma, if
there is an element. -/
def EndComma (es : List Expr) (extra : List Located) : Prop :=
  extra = [] ∨ (es ≠ [] ∧ ∃ comma, comma.token = .symbol .comma ∧ extra = [comma])

mutual

/-- The tokens `ts`, with `next` behind them, are those of the tree, and every node stands
where the first of its own tokens does. -/
def PlacedOn : Expr → List Located → Located → Prop
  | .missing m, ts, next => m.pos = (ts.headD next).pos ∧ ts = []
  | .literal m value, ts, next => m.pos = (ts.headD next).pos ∧
      ∃ t, t.token = value.token ∧ ts = [t]
  | .ident m name, ts, next => m.pos = (ts.headD next).pos ∧
      ∃ t, t.token = .ident name ∧ ts = [t]
  | .paren m inner, ts, next => m.pos = (ts.headD next).pos ∧
      ∃ opening us closing, opening.token = .symbol .lParen ∧ inner.PlacedOn us closing ∧
        closing.token = .symbol .rParen ∧ ts = opening :: (us ++ [closing])
  | .unary m op operand, ts, next => m.pos = (ts.headD next).pos ∧
      ∃ sign us, sign.token = .symbol op.sign ∧ operand.PlacedOn us next ∧ ts = sign :: us
  | .binary m op left right, ts, next => m.pos = (ts.headD next).pos ∧
      ∃ us sign vs, left.PlacedOn us sign ∧ sign.token = .symbol op.sign ∧
        right.PlacedOn vs next ∧ ts = us ++ sign :: vs
  | .member m receiver name, ts, next => m.pos = (ts.headD next).pos ∧
      ∃ us dot word, receiver.PlacedOn us dot ∧ dot.token = .symbol .dot ∧
        word.token = .ident name ∧ ts = us ++ [dot, word]
  | .call m callee args, ts, next => m.pos = (ts.headD next).pos ∧
      ∃ us opening vs closing, callee.PlacedOn us opening ∧ opening.token = .symbol .lParen ∧
        PlacedAll args vs closing ∧ closing.token = .symbol .rParen ∧
        ts = us ++ opening :: (vs ++ [closing])
  | .index m receiver args, ts, next => m.pos = (ts.headD next).pos ∧
      ∃ us opening vs closing, receiver.PlacedOn us opening ∧
        opening.token = .symbol .lBracket ∧ PlacedAll args vs closing ∧
        closing.token = .symbol .rBracket ∧ ts = us ++ opening :: (vs ++ [closing])
  | .new m ty args init, ts, next => m.pos = (ts.headD next).pos ∧
      ∃ word us vs ws, word.token = .keyword .new ∧ us.map Located.token = ty.tokens ∧
        PlacedArguments args vs ∧ PlacedInitializer init ws ∧ ts = word :: (us ++ (vs ++ ws))

/-- The tokens are those of the trees, with commas between them. -/
def PlacedAll : List Expr → List Located → Located → Prop
  | [], ts, _ => ts = []
  | e :: rest, ts, next => ∃ us vs, e.PlacedOn us (vs.headD next) ∧ PlacedRest rest vs next ∧
      ts = us ++ vs

/-- The tokens are those of the trees, each after a comma. -/
def PlacedRest : List Expr → List Located → Located → Prop
  | [], ts, _ => ts = []
  | e :: rest, ts, next => ∃ comma us vs, comma.token = .symbol .comma ∧
      e.PlacedOn us (vs.headD next) ∧ PlacedRest rest vs next ∧ ts = comma :: (us ++ vs)

/-- The tokens are those of the arguments of a construction. -/
def PlacedArguments : Option (List Expr) → List Located → Prop
  | none, ts => ts = []
  | some es, ts => ∃ opening us closing, opening.token = .symbol .lParen ∧
      PlacedAll es us closing ∧ closing.token = .symbol .rParen ∧
      ts = opening :: (us ++ [closing])

/-- The tokens are those of the initializer of a construction, with one comma more before
the closing brace or without it. -/
def PlacedInitializer : Option (List Expr) → List Located → Prop
  | none, ts => ts = []
  | some es, ts => ∃ opening us extra closing, opening.token = .symbol .lBrace ∧
      PlacedAll es us (extra.headD closing) ∧ EndComma es extra ∧
      closing.token = .symbol .rBrace ∧ ts = opening :: (us ++ (extra ++ [closing]))

end

/-! ### Trees that were read -/

/-- A tree stands where the token stands that was current when it was read. -/
theorem Spans.pos_eq {e : Expr} : ∀ {s t : TokenStream}, e.Spans s t →
    e.pos = s.current.pos := by
  induction e using children_induction with
  | step e ih =>
    intro s t h
    cases e with
    | missing m =>
      obtain ⟨-, rfl, -⟩ := h
      rfl
    | literal m value =>
      obtain ⟨-, rfl, -⟩ := h
      rfl
    | ident m name =>
      obtain ⟨-, rfl, -⟩ := h
      rfl
    | paren m inner =>
      obtain ⟨-, u, -, -, rfl, -⟩ := h
      rfl
    | unary m op operand =>
      obtain ⟨-, -, u, -, rfl, -⟩ := h
      rfl
    | binary m op left right =>
      obtain ⟨-, -, u, v, hleft, -, -, rfl, -⟩ := h
      exact ih left (by simp [children]) hleft
    | member m receiver name =>
      obtain ⟨-, u, hreceiver, -, -, rfl, -⟩ := h
      exact ih receiver (by simp [children]) hreceiver
    | call m callee args =>
      obtain ⟨-, u, v, hcallee, -, -, rfl, -⟩ := h
      exact ih callee (by simp [children]) hcallee
    | index m receiver args =>
      obtain ⟨-, u, v, hreceiver, -, -, rfl, -⟩ := h
      rcases hreceiver with hreceiver | ⟨rfl, -⟩
      · exact ih receiver (by simp [children]) hreceiver
      · rfl
    | new m ty args init =>
      obtain ⟨-, -, u, v, w, -, -, -, rfl, -⟩ := h
      rfl

theorem Spans.pos_eq_headD {e : Expr} {s t : TokenStream} {ts : List Located}
    (h : e.Spans s t) (hpass : s.Passes ts t) : e.pos = (ts.headD t.current).pos := by
  rw [h.pos_eq, hpass.current]

/-- The tokens between two streams are those of the tree that lies between them. -/
def PlacedBetween (e : Expr) (s t : TokenStream) : Prop :=
  ∃ ts, s.Passes ts t ∧ e.PlacedOn ts t.current

theorem placedRest_of_placedAll {e : Expr} {rest : List Expr} {ts : List Located}
    {comma next : Located} (hcomma : comma.token = .symbol .comma)
    (h : PlacedAll (e :: rest) ts next) : PlacedRest (e :: rest) (comma :: ts) next := by
  obtain ⟨us, vs, he, hrest, rfl⟩ := h
  exact ⟨comma, us, vs, hcomma, he, hrest, rfl⟩

/-- One more tree and a comma in front of trees that are placed. -/
theorem placedAll_cons {e second : Expr} {others : List Expr} {us vs : List Located}
    {comma next : Located} (he : e.PlacedOn us comma) (hcomma : comma.token = .symbol .comma)
    (hrest : PlacedAll (second :: others) vs next) :
    PlacedAll (e :: second :: others) (us ++ comma :: vs) next :=
  ⟨us, comma :: vs, he, placedRest_of_placedAll hcomma hrest, rfl⟩

theorem placedAll_singleton {e : Expr} {us : List Located} {next : Located}
    (he : e.PlacedOn us next) : PlacedAll [e] us next :=
  ⟨us, [], he, rfl, by simp⟩

theorem spansAll_placed : ∀ {es : List Expr} {s t : TokenStream}, SpansAll es s t →
    (∀ e ∈ es, ∀ {s t}, e.Spans s t → e.PlacedBetween s t) →
    ∃ ts, s.Passes ts t ∧ PlacedAll es ts t.current := by
  intro es
  induction es with
  | nil => intro s t h _; exact h.elim
  | cons first rest ih =>
    rintro s t ⟨u, hfirst, hrest⟩ hplaced
    obtain ⟨us, hpass, hus⟩ := hplaced first (by simp) hfirst
    rcases hrest with ⟨rfl, rfl⟩ | ⟨hcomma, hrest⟩
    · exact ⟨us, hpass, placedAll_singleton hus⟩
    · obtain ⟨vs, hpass', hvs⟩ := ih hrest fun e he => hplaced e (by simp [he])
      cases rest with
      | nil => exact hrest.elim
      | cons second others =>
        exact ⟨us ++ u.current :: vs,
          hpass.trans ((Passes.advance hcomma (by simp)).trans hpass'),
          placedAll_cons hus hcomma hvs⟩

theorem enclosed_placed {close : Symbol} {es : List Expr} {s t : TokenStream}
    (h : Enclosed close es (fun s t => SpansAll es s t) s t)
    (hplaced : ∀ e ∈ es, ∀ {s t}, e.Spans s t → e.PlacedBetween s t) :
    ∃ ts closing, closing.token = .symbol close ∧ s.Passes (ts ++ [closing]) t ∧
      PlacedAll es ts closing := by
  rcases h with ⟨rfl, hclose, rfl⟩ | ⟨-, u, hes, hclose, rfl⟩
  · exact ⟨[], s.current, hclose, Passes.advance hclose (by simp), rfl⟩
  · obtain ⟨ts, hpass, hts⟩ := spansAll_placed hes hplaced
    exact ⟨ts, u.current, hclose, hpass.trans (Passes.advance hclose (by simp)), hts⟩

theorem spansElements_placed : ∀ {es : List Expr} {s t : TokenStream}, SpansElements es s t →
    (∀ e ∈ es, ∀ {s t}, e.Spans s t → e.PlacedBetween s t) →
    ∃ ts extra, s.Passes (ts ++ extra) t ∧ PlacedAll es ts (extra.headD t.current) ∧
      EndComma es extra := by
  intro es
  induction es with
  | nil =>
    rintro s t rfl _
    exact ⟨[], [], Passes.refl t, rfl, Or.inl rfl⟩
  | cons first rest ih =>
    rintro s t ⟨-, u, hfirst, hrest⟩ hplaced
    obtain ⟨us, hpass, hus⟩ := hplaced first (by simp) hfirst
    rcases hrest with ⟨rfl, rfl⟩ | ⟨hcomma, hrest⟩
    · exact ⟨us, [], by rwa [List.append_nil], placedAll_singleton hus, Or.inl rfl⟩
    · have hstep := Passes.advance hcomma (by simp)
      cases rest with
      | nil =>
        obtain rfl : t = u.advance := hrest
        exact ⟨us, [u.current], hpass.trans hstep, placedAll_singleton hus,
          Or.inr ⟨by simp, u.current, hcomma, rfl⟩⟩
      | cons second others =>
        obtain ⟨vs, extra, hpass', hvs, hextra⟩ := ih hrest fun e he => hplaced e (by simp [he])
        refine ⟨us ++ u.current :: vs, extra, ?_, placedAll_cons hus hcomma hvs, ?_⟩
        · have := hpass.trans (hstep.trans hpass')
          simpa using this
        · exact hextra.imp_right fun ⟨_, hextra⟩ => ⟨by simp, hextra⟩

theorem spansArguments_placed {args : Option (List Expr)} {s t : TokenStream}
    (h : SpansArguments args s t)
    (hplaced : ∀ e ∈ args.getD [], ∀ {s t}, e.Spans s t → e.PlacedBetween s t) :
    ∃ ts, s.Passes ts t ∧ PlacedArguments args ts := by
  cases args with
  | none =>
    obtain ⟨-, rfl⟩ := h
    exact ⟨[], Passes.refl t, rfl⟩
  | some es =>
    obtain ⟨hparen, hes⟩ := h
    obtain ⟨us, closing, hclose, hpass, hus⟩ := enclosed_placed hes hplaced
    exact ⟨s.current :: (us ++ [closing]), (Passes.advance hparen (by simp)).trans hpass,
      s.current, us, closing, hparen, hus, hclose, rfl⟩

theorem spansInitializer_placed {init : Option (List Expr)} {s t : TokenStream}
    (h : SpansInitializer init s t)
    (hplaced : ∀ e ∈ init.getD [], ∀ {s t}, e.Spans s t → e.PlacedBetween s t) :
    ∃ ts, s.Passes ts t ∧ PlacedInitializer init ts := by
  cases init with
  | none =>
    obtain ⟨-, rfl⟩ := h
    exact ⟨[], Passes.refl t, rfl⟩
  | some es =>
    obtain ⟨hbrace, u, hes, hclose, rfl⟩ := h
    obtain ⟨us, extra, hpass, hus, hextra⟩ := spansElements_placed hes hplaced
    refine ⟨s.current :: (us ++ (extra ++ [u.current])), ?_, s.current, us, extra, u.current,
      hbrace, hus, hextra, hclose, rfl⟩
    have := (Passes.advance hbrace (by simp)).trans
      (hpass.trans (Passes.advance hclose (by simp)))
    simpa using this

/-- **The tokens that a tree was read from are those of the tree, and every node stands on
its first one.** -/
theorem Spans.placed {e : Expr} : ∀ {s t : TokenStream}, e.Spans s t →
    e.PlacedBetween s t := by
  induction e using children_induction with
  | step e ih =>
    intro s t h
    have hpos : ∀ {ts}, s.Passes ts t → e.pos = (ts.headD t.current).pos := h.pos_eq_headD
    cases e with
    | missing m =>
      obtain ⟨-, -, rfl⟩ := h
      have hpass := (Passes.refl s).numbered
      exact ⟨[], hpass, hpos hpass, rfl⟩
    | literal m value =>
      obtain ⟨hcurrent, -, rfl⟩ := h
      have hpass : s.Passes [s.current] s.advance.numbered :=
        (Passes.advance hcurrent (by cases value <;> simp [Literal.token])).numbered
      exact ⟨_, hpass, hpos hpass, s.current, hcurrent, rfl⟩
    | ident m name =>
      obtain ⟨hcurrent, -, rfl⟩ := h
      have hpass := (Passes.advance hcurrent (by simp)).numbered
      exact ⟨_, hpass, hpos hpass, s.current, hcurrent, rfl⟩
    | paren m inner =>
      obtain ⟨hopen, u, hinner, hclose, -, rfl⟩ := h
      obtain ⟨us, hpass, hus⟩ := ih inner (by simp [children]) hinner
      have hpass := ((Passes.advance hopen (by simp)).trans
        (hpass.trans (Passes.advance hclose (by simp)))).numbered
      exact ⟨_, hpass, hpos hpass, s.current, us, u.current, hopen, hus, hclose, rfl⟩
    | unary m op operand =>
      obtain ⟨hop, -, u, hspan, -, rfl⟩ := h
      obtain ⟨us, hpass, hus⟩ := ih operand (by simp [children]) hspan
      have hpass := ((Passes.advance hop (by simp)).trans hpass).numbered
      exact ⟨_, hpass, hpos hpass, s.current, us, hop, hus, rfl⟩
    | binary m op left right =>
      obtain ⟨-, -, u, v, hleft, hop, hright, -, rfl⟩ := h
      obtain ⟨us, hpass, hus⟩ := ih left (by simp [children]) hleft
      obtain ⟨vs, hpass', hvs⟩ := ih right (by simp [children]) hright
      have hpass := (hpass.trans ((Passes.advance hop (by simp)).trans hpass')).numbered
      exact ⟨_, hpass, hpos hpass, us, u.current, vs, hus, hop, hvs, rfl⟩
    | member m receiver name =>
      obtain ⟨-, u, hspan, hdot, hname, -, rfl⟩ := h
      obtain ⟨us, hpass, hus⟩ := ih receiver (by simp [children]) hspan
      have hpass := (hpass.trans ((Passes.advance hdot (by simp)).trans
        (Passes.advance hname (by simp)))).numbered
      exact ⟨_, hpass, hpos hpass, us, u.current, u.advance.current, hus, hdot, hname, rfl⟩
    | call m callee args =>
      obtain ⟨-, u, v, hspan, hopen, hargs, -, rfl⟩ := h
      obtain ⟨us, hpass, hus⟩ := ih callee (by simp [children]) hspan
      obtain ⟨vs, closing, hclose, hpass', hvs⟩ :=
        enclosed_placed hargs fun e he => ih e (by simp [children, he])
      have hpass := (hpass.trans ((Passes.advance hopen (by simp)).trans hpass')).numbered
      exact ⟨_, hpass, hpos hpass, us, u.current, vs, closing, hus, hopen, hvs, hclose, rfl⟩
    | index m receiver args =>
      obtain ⟨-, u, v, hreceiver, hopen, hargs, -, rfl⟩ := h
      obtain ⟨us, hpass, hus⟩ : receiver.PlacedBetween s u := by
        rcases hreceiver with hspan | ⟨rfl, rfl⟩
        · exact ih receiver (by simp [children]) hspan
        · exact ⟨[], (Passes.refl s).numbered, rfl, rfl⟩
      obtain ⟨vs, closing, hclose, hpass', hvs⟩ :=
        enclosed_placed hargs fun e he => ih e (by simp [children, he])
      have hpass := (hpass.trans ((Passes.advance hopen (by simp)).trans hpass')).numbered
      exact ⟨_, hpass, hpos hpass, us, u.current, vs, closing, hus, hopen, hvs, hclose, rfl⟩
    | new m ty args init =>
      obtain ⟨hnew, -, u, v, w, hty, hargs, hinit, -, rfl⟩ := h
      obtain ⟨ks, hpass, hks⟩ := hty.1.passes
      obtain ⟨us, hpass', hus⟩ :=
        spansArguments_placed hargs fun e he => ih e (by simp [children, he])
      obtain ⟨vs, hpass'', hvs⟩ :=
        spansInitializer_placed hinit fun e he => ih e (by simp [children, he])
      have hpass := ((Passes.advance hnew (by simp)).trans
        (hpass.trans (hpass'.trans hpass''))).numbered
      exact ⟨_, hpass, hpos hpass, s.current, ks, us, vs, hnew, hks, hus, hvs, rfl⟩

/-! ### How operators group -/

/-- The operator between two operands at the root of the tree. -/
def operator? : Expr → Option BinaryOp
  | .binary _ op _ _ => some op
  | _ => none

/-- The node groups its operators by how tightly they bind, equal ones to the left. -/
def Grouped : Expr → Prop
  | .binary _ op left right => (∀ inner ∈ left.operator?, op.rank ≤ inner.rank) ∧
      ∀ inner ∈ right.operator?, op.rank < inner.rank
  | .unary _ _ operand => operand.operator? = none
  | .member _ receiver _ => receiver.operator? = none
  | .call _ callee _ => callee.operator? = none
  | .index _ receiver _ => receiver.operator? = none
  | _ => True

theorem rank_of_operator? {e : Expr} {op : BinaryOp} (h : e.operator? = some op) :
    e.rank = op.rank := by
  cases e with
  | binary m op' left right =>
    cases h
    rfl
  | _ => cases h

theorem operator?_of_rank {e : Expr} (h : 6 ≤ e.rank) : e.operator? = none := by
  cases e with
  | binary m op left right =>
    have hlt := op.rank_lt
    have hrank : 6 ≤ op.rank := h
    omega
  | _ => rfl

theorem Formed.grouped {e : Expr} (h : e.Formed) : e.Grouped := by
  cases e with
  | unary m op operand => exact operator?_of_rank h
  | binary m op left right =>
    obtain ⟨hleft, hright, -⟩ := h
    refine ⟨fun inner hinner => ?_, fun inner hinner => ?_⟩
    · rwa [rank_of_operator? hinner] at hleft
    · rwa [rank_of_operator? hinner] at hright
  | member m receiver name => exact operator?_of_rank (by have := h.1; omega)
  | call m callee args => exact operator?_of_rank (by have := h.1; omega)
  | index m receiver args => exact operator?_of_rank (by have := h.1; omega)
  | _ => exact trivial

theorem Spans.grouped {e : Expr} {s t : TokenStream} (h : e.Spans s t) :
    ∀ n ∈ e.nodes, n.Grouped :=
  fun n hn => (h.wellFormed n hn).grouped

end Expr

namespace Stmt

open TokenStream

/-! ### Statements on their tokens -/

/-- The tokens are those of the initializer of a declaration. -/
def PlacedInit : Option Expr → List Located → Located → Prop
  | none, ts, _ => ts = []
  | some e, ts, next => ∃ sign us, sign.token = .symbol .assign ∧ e.PlacedOn us next ∧
      ts = sign :: us

mutual

/-- The tokens `ts`, with `next` behind them, are those of the statement; every node stands
on the first of its own tokens, and a declaration is on the line of its first token. -/
def PlacedOn : Stmt → List Located → Located → Prop
  | .declare ty name init line, ts, next => line = (ts.headD next).pos.line ∧
      ∃ us word vs semi, us.map Located.token = declaredTokens ty ∧ word.token = .ident name ∧
        PlacedInit init vs semi ∧ semi.token = .symbol .semi ∧ ts = us ++ word :: (vs ++ [semi])
  | .assign target value, ts, _ => ∃ us sign vs semi, target.PlacedOn us sign ∧
      sign.token = .symbol .assign ∧ value.PlacedOn vs semi ∧ semi.token = .symbol .semi ∧
      ts = us ++ sign :: (vs ++ [semi])
  | .expr value, ts, _ => ∃ us semi, value.PlacedOn us semi ∧ semi.token = .symbol .semi ∧
      ts = us ++ [semi]
  | .block stmts, ts, _ => ∃ opening us closing, opening.token = .symbol .lBrace ∧
      PlacedAll stmts us closing ∧ closing.token = .symbol .rBrace ∧
      ts = opening :: (us ++ [closing])
  | .branch cond thenBranch elseBranch, ts, next => ∃ word opening us closing vs ws,
      word.token = .keyword .if_ ∧ opening.token = .symbol .lParen ∧ cond.PlacedOn us closing ∧
      closing.token = .symbol .rParen ∧ thenBranch.PlacedOn vs (ws.headD next) ∧
      PlacedElse elseBranch ws next ∧ ts = word :: opening :: (us ++ closing :: (vs ++ ws))
  | .foreach ty name iter body, ts, next => ∃ word opening us declared within vs closing ws,
      word.token = .keyword .foreach ∧ opening.token = .symbol .lParen ∧
      us.map Located.token = declaredTokens ty ∧ declared.token = .ident name ∧
      within.token = .keyword .in_ ∧ iter.PlacedOn vs closing ∧
      closing.token = .symbol .rParen ∧ body.PlacedOn ws next ∧
      ts = word :: opening :: (us ++ declared :: within :: (vs ++ closing :: ws))

/-- The tokens are those of the statements, one after the other. -/
def PlacedAll : List Stmt → List Located → Located → Prop
  | [], ts, _ => ts = []
  | s :: rest, ts, next => ∃ us vs, s.PlacedOn us (vs.headD next) ∧ PlacedAll rest vs next ∧
      ts = us ++ vs

/-- The tokens are those of the alternative of a choice. -/
def PlacedElse : Option Stmt → List Located → Located → Prop
  | none, ts, _ => ts = []
  | some s, ts, next => ∃ word us, word.token = .keyword .else_ ∧ s.PlacedOn us next ∧
      ts = word :: us

end

/-! ### Statements that were read -/

/-- The tokens between two streams are those of the statement that lies between them. -/
def PlacedBetween (st : Stmt) (s t : TokenStream) : Prop :=
  ∃ ts, s.Passes ts t ∧ st.PlacedOn ts t.current

theorem SpansDeclared.passes {ty : Option TypeExpr} {s t : TokenStream}
    (h : SpansDeclared ty s t) :
    ∃ ts, s.Passes ts t ∧ ts.map Located.token = declaredTokens ty := by
  cases ty with
  | none =>
    obtain ⟨hvar, rfl⟩ := h
    exact ⟨[s.current], Passes.advance hvar (by simp), by rw [declaredTokens, ← hvar]; rfl⟩
  | some ty => exact h.1.passes

theorem SpansInit.placed {init : Option Expr} {s t : TokenStream} (h : SpansInit init s t) :
    ∃ ts, s.Passes ts t ∧ PlacedInit init ts t.current := by
  cases init with
  | none =>
    obtain rfl : t = s := h
    exact ⟨[], Passes.refl t, rfl⟩
  | some e =>
    obtain ⟨hassign, he⟩ := h
    obtain ⟨us, hpass, hus⟩ := he.placed
    exact ⟨_, (Passes.advance hassign (by simp)).trans hpass, s.current, us, hassign, hus, rfl⟩

theorem spansAll_placed : ∀ {stmts : List Stmt} {s t : TokenStream}, SpansAll stmts s t →
    (∀ p ∈ stmts, ∀ {s t}, p.Spans s t → p.PlacedBetween s t) →
    ∃ ts, s.Passes ts t ∧ PlacedAll stmts ts t.current := by
  intro stmts
  induction stmts with
  | nil =>
    rintro s t rfl _
    exact ⟨[], Passes.refl t, rfl⟩
  | cons first rest ih =>
    rintro s t ⟨u, hfirst, hrest⟩ hplaced
    obtain ⟨us, hpass, hus⟩ := hplaced first (by simp) hfirst
    obtain ⟨vs, hpass', hvs⟩ := ih hrest fun p hp => hplaced p (by simp [hp])
    refine ⟨us ++ vs, hpass.trans hpass', us, vs, ?_, hvs, rfl⟩
    rwa [← hpass'.current]

/-- **The tokens that a statement was read from are those of the statement.** -/
theorem Spans.placed {st : Stmt} : ∀ {s t : TokenStream}, st.Spans s t →
    st.PlacedBetween s t := by
  induction st using parts_induction with
  | step st ih =>
    intro s t h
    cases st with
    | declare ty name init line =>
      obtain ⟨-, rfl, u, v, hty, hname, hinit, hsemi, rfl⟩ := h
      obtain ⟨us, hpass, hus⟩ := hty.passes
      obtain ⟨vs, hpass', hvs⟩ := hinit.placed
      have hpass := hpass.trans ((Passes.advance hname (by simp)).trans
        (hpass'.trans (Passes.advance hsemi (by simp))))
      exact ⟨_, hpass, by rw [← hpass.current], us, u.current, vs, v.current, hus, hname, hvs,
        hsemi, rfl⟩
    | assign target value =>
      obtain ⟨-, u, v, htarget, hassign, hvalue, hsemi, rfl⟩ := h
      obtain ⟨us, hpass, hus⟩ := htarget.placed
      obtain ⟨vs, hpass', hvs⟩ := hvalue.placed
      exact ⟨_, hpass.trans ((Passes.advance hassign (by simp)).trans
        (hpass'.trans (Passes.advance hsemi (by simp)))), us, u.current, vs, v.current, hus,
        hassign, hvs, hsemi, rfl⟩
    | expr value =>
      obtain ⟨-, u, hvalue, hsemi, rfl⟩ := h
      obtain ⟨us, hpass, hus⟩ := hvalue.placed
      exact ⟨_, hpass.trans (Passes.advance hsemi (by simp)), us, u.current, hus, hsemi, rfl⟩
    | block stmts =>
      obtain ⟨hopen, u, hall, hclose, rfl⟩ := h
      obtain ⟨us, hpass, hus⟩ := spansAll_placed hall fun p hp => ih p (by simpa [parts] using hp)
      exact ⟨_, (Passes.advance hopen (by simp)).trans (hpass.trans
        (Passes.advance hclose (by simp))), s.current, us, u.current, hopen, hus, hclose, rfl⟩
    | branch cond thenBranch elseBranch =>
      obtain ⟨hif, hopen, u, v, hcond, hclose, hthen, helse⟩ := h
      obtain ⟨us, hpass, hus⟩ := hcond.placed
      obtain ⟨vs, hpass', hvs⟩ := ih thenBranch (by simp [parts]) hthen
      obtain ⟨ws, hpass'', hws⟩ :
          ∃ ws, v.Passes ws t ∧ PlacedElse elseBranch ws t.current := by
        cases elseBranch with
        | none =>
          obtain ⟨-, rfl⟩ := helse
          exact ⟨[], Passes.refl t, rfl⟩
        | some other =>
          obtain ⟨helse, hother⟩ := helse
          obtain ⟨ws, hpass'', hws⟩ := ih other (by simp [parts]) hother
          exact ⟨_, (Passes.advance helse (by simp)).trans hpass'', v.current, ws, helse, hws,
            rfl⟩
      rw [hpass''.current] at hvs
      exact ⟨_, (Passes.advance hif (by simp)).trans ((Passes.advance hopen (by simp)).trans
        (hpass.trans ((Passes.advance hclose (by simp)).trans (hpass'.trans hpass'')))),
        s.current, s.advance.current, us, u.current, vs, ws, hif, hopen, hus, hclose, hvs, hws,
        rfl⟩
    | foreach ty name iter body =>
      obtain ⟨hforeach, hopen, u, v, hty, hname, hin, hiter, hclose, hbody⟩ := h
      obtain ⟨us, hpass, hus⟩ := hty.passes
      obtain ⟨vs, hpass', hvs⟩ := hiter.placed
      obtain ⟨ws, hpass'', hws⟩ := ih body (by simp [parts]) hbody
      exact ⟨_, (Passes.advance hforeach (by simp)).trans ((Passes.advance hopen (by simp)).trans
        (hpass.trans ((Passes.advance hname (by simp)).trans ((Passes.advance hin (by simp)).trans
        (hpass'.trans ((Passes.advance hclose (by simp)).trans hpass'')))))),
        s.current, s.advance.current, us, u.current, u.advance.current, vs, v.current, ws,
        hforeach, hopen, hus, hname, hin, hvs, hclose, hws, rfl⟩

theorem grouped_of_roots {es : List Expr} (h : ∀ e ∈ es, ∀ n ∈ e.nodes, n.Grouped) :
    ∀ n ∈ Expr.nodesOfAll es, n.Grouped := by
  intro n hn
  rw [Expr.nodesOfAll_eq, List.mem_flatMap] at hn
  obtain ⟨e, he, hne⟩ := hn
  exact h e he n hne

theorem Spans.grouped {st : Stmt} {s t : TokenStream} (h : st.Spans s t) :
    ∀ n ∈ st.nodes, n.Grouped :=
  grouped_of_roots (h.forall_roots Expr.Spans.grouped)

theorem spansAll_grouped {stmts : List Stmt} {s t : TokenStream} (h : SpansAll stmts s t) :
    ∀ n ∈ Expr.nodesOfAll (rootsOfAll stmts), n.Grouped :=
  grouped_of_roots (spansAll_roots h fun _ _ => Spans.forall_roots Expr.Spans.grouped)

/-! ### Which choice an alternative belongs to

An `else` is read by the innermost choice that is still open.  So a choice inside another
one, without an alternative, never stands directly in front of one, and that can be said
of a statement without its tokens.
-/

/-- The statement `p` is `s` or stands somewhere inside it. -/
inductive Within : Stmt → Stmt → Prop
  | self (s : Stmt) : Within s s
  | part {p q s : Stmt} (hq : q ∈ s.parts) (h : Within p q) : Within p s

/-- No choice inside the statement has an alternative behind a choice that is still open:
every alternative belongs to the nearest choice that can have it. -/
def ElseNearest (s : Stmt) : Prop :=
  ∀ cond thenBranch other, Within (.branch cond thenBranch (some other)) s →
    thenBranch.endsOpen = false

theorem WellFormed.part {s p : Stmt} (h : s.WellFormed) (hp : p ∈ s.parts) : p.WellFormed := by
  cases s with
  | declare ty name init line => cases hp
  | assign target value => cases hp
  | expr value => cases hp
  | block stmts => exact allWellFormed_iff.mp h p hp
  | branch cond thenBranch elseBranch =>
    rcases (by simpa [parts] using hp : p = thenBranch ∨ elseBranch = some p) with rfl | rfl
    · exact h.2.1
    · exact h.2.2.2
  | foreach ty name iter body =>
    obtain rfl : p = body := by simpa [parts] using hp
    exact h.2.2

theorem WellFormed.within {s p : Stmt} (hp : Within p s) : s.WellFormed → p.WellFormed := by
  induction hp with
  | self => exact id
  | part hq _ ih => exact fun h => ih (h.part hq)

theorem WellFormed.elseNearest {s : Stmt} (h : s.WellFormed) : s.ElseNearest := by
  intro cond thenBranch other hin
  have hbranch := WellFormed.within hin h
  exact hbranch.2.2.1 rfl

end Stmt

/-! ### Whole readings -/

namespace Parser

open TokenStream

/-- **A reading accounts for every token.**  What is read from a stream stands on exactly
the tokens that were used up, with every node on the first of its own tokens; operators
group by how tightly they bind and to the left; and an alternative belongs to the nearest
open choice. -/
theorem reads_every_token (s t : TokenStream) :
    (∀ e, expr s = .ok e t →
      (∃ ts, s.Passes ts t ∧ e.PlacedOn ts t.current) ∧ ∀ n ∈ e.nodes, n.Grouped) ∧
    (∀ st, stmt s = .ok st t →
      (∃ ts, s.Passes ts t ∧ st.PlacedOn ts t.current) ∧ (∀ n ∈ st.nodes, n.Grouped) ∧
        st.ElseNearest ∧ (st.endsOpen = true → t.current.token ≠ .keyword .else_)) ∧
    (∀ p, program s = .ok p t →
      (∃ ts, s.Passes ts t ∧ Stmt.PlacedAll p.stmts ts t.current) ∧ t.current.token = .eof ∧
        (∀ n ∈ p.nodes, n.Grouped) ∧ ∀ st ∈ p.stmts, st.ElseNearest) := by
  refine ⟨fun e h => ?_, fun st h => ?_, fun p h => ?_⟩
  · have hspan := expr_spans h
    exact ⟨hspan.placed, hspan.grouped⟩
  · rw [stmt, remaining_bind] at h
    have hspan := stmtNested_spans (by simp) h
    exact ⟨hspan.placed, hspan.grouped, hspan.wellFormed.elseNearest, hspan.current_ne_else⟩
  · obtain ⟨hspan, -⟩ := program_spans h
    refine ⟨Stmt.spansAll_placed hspan fun p _ => Stmt.Spans.placed, program_ends h,
      Stmt.spansAll_grouped hspan, fun st hst => ?_⟩
    have hwf := Stmt.spansAll_wellFormed hspan fun p _ => Stmt.Spans.wellFormed
    exact (Stmt.allWellFormed_iff.mp hwf st hst).elseNearest

/-- The tokens of `if (a - b < ) if (c) ; else ;` are one statement; its condition begins at
the third of them. -/
theorem reads_every_token_nested :
    let s : TokenStream := ⟨[⟨.keyword .if_, ⟨1, 1⟩⟩, ⟨.symbol .lParen, ⟨1, 4⟩⟩,
      ⟨.ident "a", ⟨1, 5⟩⟩, ⟨.symbol .minus, ⟨1, 7⟩⟩, ⟨.ident "b", ⟨1, 9⟩⟩,
      ⟨.symbol .lt, ⟨1, 11⟩⟩, ⟨.symbol .rParen, ⟨1, 13⟩⟩, ⟨.keyword .if_, ⟨2, 1⟩⟩,
      ⟨.symbol .lParen, ⟨2, 4⟩⟩, ⟨.ident "c", ⟨2, 5⟩⟩, ⟨.symbol .rParen, ⟨2, 6⟩⟩,
      ⟨.symbol .semi, ⟨2, 8⟩⟩, ⟨.keyword .else_, ⟨3, 1⟩⟩, ⟨.symbol .semi, ⟨3, 6⟩⟩], ⟨3, 7⟩, 0⟩
    ∃ e t st p u, expr s.advance.advance = .ok e t ∧ stmt s = .ok st u ∧ program s = .ok p u ∧
      (∃ ts, s.advance.advance.Passes ts t ∧ e.PlacedOn ts t.current) ∧
      (∀ n ∈ e.nodes, n.Grouped) ∧ st.ElseNearest ∧ u.current.token = .eof := by
  intro s
  have hexpr := (reads_every_token s.advance.advance _).1 _ rfl
  have hstmt := (reads_every_token s _).2.1 _ rfl
  have hprogram := (reads_every_token s _).2.2 _ rfl
  exact ⟨_, _, _, _, _, rfl, rfl, rfl, hexpr.1, hexpr.2, hstmt.2.2.1, hprogram.2.1⟩

end Parser

end ListSugar
