/-
Two readings of one shape.

A stream that goes on after the end of another one gives the same numbers and places to
whatever is read from both.  So a tree is known once its shape is known and the stream it was
read from is known as far as the tree goes: two readings that end in trees of one shape end
in the same tree, and they leave streams of which the one still goes on after the other.
-/
import ListSugar.Proofs.Grammar.Statements

namespace ListSugar

namespace TokenStream

/-- The stream `s'` has the tokens of `s` and `more` behind them. -/
structure Ahead (more : List Located) (s s' : TokenStream) : Prop where
  unread : s'.unread = s.unread ++ more
  nextId : s'.nextId = s.nextId

section

variable {more : List Located} {s s' t t' : TokenStream}

theorem Ahead.numbered (h : Ahead more s s') : Ahead more s.numbered s'.numbered :=
  ⟨h.unread, congrArg (· + 1) h.nextId⟩

theorem Ahead.drop (h : Ahead more s s') {k : Nat} (hk : k ≤ s.unread.length) :
    Ahead more { s with unread := s.unread.drop k } { s' with unread := s'.unread.drop k } := by
  refine ⟨?_, h.nextId⟩
  show s'.unread.drop k = s.unread.drop k ++ more
  rw [h.unread, List.drop_append_of_le_length hk]

theorem length_unread_pos {k : Token} (h : s.current.token = k) (hk : k ≠ .eof) :
    0 < s.unread.length := by
  rw [length_unread, kinds_of_current h hk]
  exact Nat.succ_pos _

theorem Ahead.advance (h : Ahead more s s') {k : Token} (hs : s.current.token = k)
    (hk : k ≠ .eof) : Ahead more s.advance s'.advance :=
  h.drop (length_unread_pos hs hk)

/-- Both streams have the same current token, unless the shorter one is at its end. -/
theorem Ahead.current (h : Ahead more s s') {k : Token} (hs : s.current.token = k)
    (hk : k ≠ .eof) : s'.current = s.current := by
  have hpos := length_unread_pos hs hk
  unfold TokenStream.current
  rw [h.unread]
  cases hs : s.unread with
  | nil =>
    rw [hs] at hpos
    cases hpos
  | cons first rest => rfl

theorem Takes.eq_drop {ts : List Token} (h : s.Takes ts t) :
    ts.length ≤ s.unread.length ∧ t = { s with unread := s.unread.drop ts.length } := by
  obtain ⟨k, rfl⟩ := h.only
  have hlen := congrArg List.length h.kinds
  simp only [TokenStream.kinds, List.length_append, List.length_map, List.length_drop] at hlen
  refine ⟨by omega, ?_⟩
  congr 1
  rcases Nat.le_total k s.unread.length with hk | hk
  · rw [show k = ts.length by omega]
  · rw [List.drop_eq_nil_of_le hk, List.drop_eq_nil_of_le (by omega)]

/-- Streams behind the same tokens. -/
theorem Ahead.takes {ts : List Token} (h : Ahead more s s') (ht : s.Takes ts t)
    (ht' : s'.Takes ts t') : Ahead more t t' := by
  rw [ht.eq_drop.2, ht'.eq_drop.2]
  exact h.drop ht.eq_drop.1

end

end TokenStream

namespace Expr

open TokenStream

/-! ### Trees

A tree and one of its shape are read by the same rules, so the two readings are followed
side by side.  A rule looks at tokens, and both streams show the same one as long as the
shorter stream is not at its end, which it is not where a token is used up.
-/

/-- Any two readings of the tree and of one of its shape, from streams of which the second
goes on after the first, are one reading. -/
def Determined (e : Expr) : Prop :=
  ∀ ⦃e' : Expr⦄ ⦃more : List Located⦄ ⦃s t s' t' : TokenStream⦄, e.Spans s t → e'.Spans s' t' →
    Ahead more s s' → e'.bare = e.bare → e' = e ∧ Ahead more t t'

variable {more : List Located}

theorem spansAll_determined : ∀ {es es' : List Expr} {s t s' t' : TokenStream},
    (∀ e ∈ es, e.Determined) → SpansAll es s t → SpansAll es' s' t' → Ahead more s s' →
    bareAll es' = bareAll es → es' = es ∧ Ahead more t t' := by
  intro es
  induction es with
  | nil => intro es' s t s' t' _ h; exact h.elim
  | cons e rest ih =>
    intro es' s t s' t' hdet h h' hahead hbare
    cases es' with
    | nil => cases hbare
    | cons e' rest' =>
      injection hbare with hbare hbares
      obtain ⟨u, hfirst, hrest⟩ := h
      obtain ⟨u', hfirst', hrest'⟩ := h'
      obtain ⟨rfl, hu⟩ := hdet e (by simp) hfirst hfirst' hahead hbare
      rcases hrest with ⟨rfl, rfl⟩ | ⟨hcomma, hrest⟩
      · cases rest' with
        | cons _ _ => cases hbares
        | nil =>
          rcases hrest' with ⟨-, rfl⟩ | ⟨-, hrest'⟩
          · exact ⟨rfl, hu⟩
          · exact hrest'.elim
      · rcases hrest' with ⟨rfl, -⟩ | ⟨-, hrest'⟩
        · cases rest with
          | nil => exact hrest.elim
          | cons _ _ => cases hbares
        · obtain ⟨rfl, ht⟩ := ih (fun e he => hdet e (by simp [he])) hrest hrest'
            (hu.advance hcomma (by simp)) hbares
          exact ⟨rfl, ht⟩

theorem enclosed_determined {close : Symbol} {es es' : List Expr} {s t s' t' : TokenStream}
    (hdet : ∀ e ∈ es, e.Determined) (h : Enclosed close es (fun s t => SpansAll es s t) s t)
    (h' : Enclosed close es' (fun s t => SpansAll es' s t) s' t') (hahead : Ahead more s s')
    (hbare : bareAll es' = bareAll es) : es' = es ∧ Ahead more t t' := by
  rcases h with ⟨rfl, hclose, rfl⟩ | ⟨-, u, hes, hclose, rfl⟩
  · cases es' with
    | cons _ _ => cases hbare
    | nil =>
      rcases h' with ⟨-, -, rfl⟩ | ⟨-, u', hes', -⟩
      · exact ⟨rfl, hahead.advance hclose (by simp)⟩
      · exact hes'.elim
  · rcases h' with ⟨rfl, -⟩ | ⟨-, u', hes', -, rfl⟩
    · cases es with
      | nil => exact hes.elim
      | cons _ _ => cases hbare
    · obtain ⟨rfl, hu⟩ := spansAll_determined hdet hes hes' hahead hbare
      exact ⟨rfl, hu.advance hclose (by simp)⟩

/-- Elements in front of a closing brace: whether a comma ends them can be seen from either
stream. -/
theorem spansElements_determined : ∀ {es es' : List Expr} {s t s' t' : TokenStream},
    (∀ e ∈ es, e.Determined) → SpansElements es s t → SpansElements es' s' t' →
    t.current.token = .symbol .rBrace → t'.current.token = .symbol .rBrace → Ahead more s s' →
    bareAll es' = bareAll es → es' = es ∧ Ahead more t t' := by
  intro es
  induction es with
  | nil =>
    rintro es' s t s' t' _ rfl h' _ _ hahead hbare
    cases es' with
    | cons _ _ => cases hbare
    | nil =>
      obtain rfl : t' = s' := h'
      exact ⟨rfl, hahead⟩
  | cons e rest ih =>
    intro es' s t s' t' hdet h h' hclose hclose' hahead hbare
    cases es' with
    | nil => cases hbare
    | cons e' rest' =>
      injection hbare with hbare hbares
      obtain ⟨-, u, hfirst, hrest⟩ := h
      obtain ⟨-, u', hfirst', hrest'⟩ := h'
      obtain ⟨rfl, hu⟩ := hdet e (by simp) hfirst hfirst' hahead hbare
      rcases hrest with ⟨rfl, rfl⟩ | ⟨hcomma, hrest⟩
      · cases rest' with
        | cons _ _ => cases hbares
        | nil =>
          rcases hrest' with ⟨-, rfl⟩ | ⟨hcomma', -⟩
          · exact ⟨rfl, hu⟩
          · have hsame := hu.current hclose (by simp)
            rw [hsame, hclose] at hcomma'
            cases hcomma'
      · rcases hrest' with ⟨rfl, rfl⟩ | ⟨-, hrest'⟩
        · have hsame := hu.current hcomma (by simp)
          rw [hsame, hcomma] at hclose'
          cases hclose'
        · obtain ⟨rfl, ht⟩ := ih (fun e he => hdet e (by simp [he])) hrest hrest' hclose hclose'
            (hu.advance hcomma (by simp)) hbares
          exact ⟨rfl, ht⟩

theorem spansArguments_determined {args args' : Option (List Expr)} {s t s' t' : TokenStream}
    (hdet : ∀ e ∈ args.getD [], e.Determined) (h : SpansArguments args s t)
    (h' : SpansArguments args' s' t') (hahead : Ahead more s s')
    (hbare : barePart args' = barePart args) : args' = args ∧ Ahead more t t' := by
  cases args with
  | none =>
    cases args' with
    | some _ => cases hbare
    | none =>
      obtain ⟨-, rfl⟩ := h
      obtain ⟨-, rfl⟩ := h'
      exact ⟨rfl, hahead⟩
  | some es =>
    cases args' with
    | none => cases hbare
    | some es' =>
      injection hbare with hbare
      obtain ⟨rfl, ht⟩ :=
        enclosed_determined hdet h.2 h'.2 (hahead.advance h.1 (by simp)) hbare
      exact ⟨rfl, ht⟩

theorem spansInitializer_determined {init init' : Option (List Expr)} {s t s' t' : TokenStream}
    (hdet : ∀ e ∈ init.getD [], e.Determined) (h : SpansInitializer init s t)
    (h' : SpansInitializer init' s' t') (hahead : Ahead more s s')
    (hbare : barePart init' = barePart init) : init' = init ∧ Ahead more t t' := by
  cases init with
  | none =>
    cases init' with
    | some _ => cases hbare
    | none =>
      obtain ⟨-, rfl⟩ := h
      obtain ⟨-, rfl⟩ := h'
      exact ⟨rfl, hahead⟩
  | some es =>
    cases init' with
    | none => cases hbare
    | some es' =>
      injection hbare with hbare
      obtain ⟨hopen, u, hes, hclose, rfl⟩ := h
      obtain ⟨-, u', hes', hclose', rfl⟩ := h'
      obtain ⟨rfl, hu⟩ := spansElements_determined hdet hes hes' hclose hclose'
        (hahead.advance hopen (by simp)) hbare
      exact ⟨rfl, hu.advance hclose (by simp)⟩

/-- The receiver of an access, which a bare bracket leaves out. -/
theorem receiver_determined {receiver receiver' : Expr} {s u s' u' : TokenStream}
    (hdet : receiver.Determined)
    (h : receiver.Spans s u ∨ (receiver = .missing ⟨s.nextId, s.current.pos⟩ ∧ u = s.numbered))
    (hopen : u.current.token = .symbol .lBracket)
    (h' : receiver'.Spans s' u' ∨
      (receiver' = .missing ⟨s'.nextId, s'.current.pos⟩ ∧ u' = s'.numbered))
    (hahead : Ahead more s s') (hbare : receiver'.bare = receiver.bare) :
    receiver' = receiver ∧ Ahead more u u' := by
  rcases h with hspan | ⟨rfl, rfl⟩
  · rcases h' with hspan' | ⟨rfl, rfl⟩
    · exact hdet hspan hspan' hahead hbare
    · cases receiver with
      | missing m =>
        -- A bracket ends no operand, so nothing is missing where one stands.
        obtain ⟨hends, -, rfl⟩ := hspan
        rw [show s.current.token = .symbol .lBracket from hopen] at hends
        cases hends
      | _ => cases hbare
  · have hsame := hahead.current hopen (by simp)
    cases receiver' with
    | missing m' =>
      obtain ⟨rfl, rfl⟩ : m' = ⟨s'.nextId, s'.current.pos⟩ ∧ u' = s'.numbered := by
        rcases h' with ⟨-, hm, hu⟩ | ⟨hm, hu⟩
        · exact ⟨hm, hu⟩
        · exact ⟨by injection hm, hu⟩
      exact ⟨by rw [hahead.nextId, hsame], hahead.numbered⟩
    | _ => cases hbare

/-- **A tree that was read is known by its shape and its stream.** -/
theorem determined (e : Expr) : e.Determined := by
  induction e using children_induction with
  | step e ih =>
    intro e' more s t s' t' h h' hahead hbare
    cases e with
    | missing m =>
      cases e' with
      | missing m' =>
        obtain ⟨hends, rfl, rfl⟩ := h
        obtain ⟨-, rfl, rfl⟩ := h'
        have hne : s.current.token ≠ .eof := by
          intro heof
          rw [heof] at hends
          cases hends
        exact ⟨by rw [hahead.nextId, hahead.current rfl hne], hahead.numbered⟩
      | _ => cases hbare
    | literal m value =>
      cases e' with
      | literal m' value' =>
        cases hbare
        obtain ⟨hcurrent, rfl, rfl⟩ := h
        obtain ⟨-, rfl, rfl⟩ := h'
        have hne : value.token ≠ .eof := by cases value <;> simp [Literal.token]
        exact ⟨by rw [hahead.nextId, hahead.current hcurrent hne],
          (hahead.advance hcurrent hne).numbered⟩
      | _ => cases hbare
    | ident m name =>
      cases e' with
      | ident m' name' =>
        cases hbare
        obtain ⟨hcurrent, rfl, rfl⟩ := h
        obtain ⟨-, rfl, rfl⟩ := h'
        have hsame := hahead.current hcurrent (by simp)
        exact ⟨by rw [hahead.nextId, hsame], (hahead.advance hcurrent (by simp)).numbered⟩
      | _ => cases hbare
    | paren m inner =>
      cases e' with
      | paren m' inner' =>
        injection hbare with _ hbare
        obtain ⟨hopen, u, hinner, hclose, rfl, rfl⟩ := h
        obtain ⟨-, u', hinner', -, rfl, rfl⟩ := h'
        obtain ⟨rfl, hu⟩ := ih inner (by simp [children]) hinner hinner'
          (hahead.advance hopen (by simp)) hbare
        have hsame := hahead.current hopen (by simp)
        exact ⟨by rw [hsame, hu.nextId], (hu.advance hclose (by simp)).numbered⟩
      | _ => cases hbare
    | unary m op operand =>
      cases e' with
      | unary m' op' operand' =>
        injection hbare with _ hop hbare
        subst hop
        obtain ⟨hcurrent, -, u, hspan, rfl, rfl⟩ := h
        obtain ⟨-, -, u', hspan', rfl, rfl⟩ := h'
        obtain ⟨rfl, hu⟩ := ih operand (by simp [children]) hspan hspan'
          (hahead.advance hcurrent (by simp)) hbare
        have hsame := hahead.current hcurrent (by simp)
        exact ⟨by rw [hsame, hu.nextId], hu.numbered⟩
      | _ => cases hbare
    | binary m op left right =>
      cases e' with
      | binary m' op' left' right' =>
        injection hbare with _ hop hbare hbare'
        subst hop
        obtain ⟨-, -, u, v, hleft, hcurrent, hright, rfl, rfl⟩ := h
        obtain ⟨-, -, u', v', hleft', -, hright', rfl, rfl⟩ := h'
        obtain ⟨rfl, hu⟩ := ih left (by simp [children]) hleft hleft' hahead hbare
        obtain ⟨rfl, hv⟩ := ih right (by simp [children]) hright hright'
          (hu.advance hcurrent (by simp)) hbare'
        exact ⟨by rw [hv.nextId], hv.numbered⟩
      | _ => cases hbare
    | member m receiver name =>
      cases e' with
      | member m' receiver' name' =>
        injection hbare with _ hbare hname
        subst hname
        obtain ⟨-, u, hspan, hdot, hname, rfl, rfl⟩ := h
        obtain ⟨-, u', hspan', -, -, rfl, rfl⟩ := h'
        obtain ⟨rfl, hu⟩ := ih receiver (by simp [children]) hspan hspan' hahead hbare
        have hv := (hu.advance hdot (by simp)).advance hname (by simp)
        exact ⟨by rw [hu.nextId], hv.numbered⟩
      | _ => cases hbare
    | call m callee args =>
      cases e' with
      | call m' callee' args' =>
        injection hbare with _ hbare hbares
        obtain ⟨-, u, v, hcallee, hopen, hargs, rfl, rfl⟩ := h
        obtain ⟨-, u', v', hcallee', -, hargs', rfl, rfl⟩ := h'
        obtain ⟨rfl, hu⟩ := ih callee (by simp [children]) hcallee hcallee' hahead hbare
        obtain ⟨rfl, hv⟩ := enclosed_determined (fun e he => ih e (by simp [children, he]))
          hargs hargs' (hu.advance hopen (by simp)) hbares
        exact ⟨by rw [hv.nextId], hv.numbered⟩
      | _ => cases hbare
    | index m receiver args =>
      cases e' with
      | index m' receiver' args' =>
        injection hbare with _ hbare hbares
        obtain ⟨-, u, v, hreceiver, hopen, hargs, rfl, rfl⟩ := h
        obtain ⟨-, u', v', hreceiver', -, hargs', rfl, rfl⟩ := h'
        obtain ⟨rfl, hu⟩ := receiver_determined (ih receiver (by simp [children])) hreceiver
          hopen hreceiver' hahead hbare
        obtain ⟨rfl, hv⟩ := enclosed_determined (fun e he => ih e (by simp [children, he]))
          hargs hargs' (hu.advance hopen (by simp)) hbares
        exact ⟨by rw [hv.nextId], hv.numbered⟩
      | _ => cases hbare
    | new m ty args init =>
      cases e' with
      | new m' ty' args' init' =>
        injection hbare with _ hty hbare hbare'
        subst hty
        obtain ⟨hnew, -, u, v, w, hty, hargs, hinit, rfl, rfl⟩ := h
        obtain ⟨-, -, u', v', w', hty', hargs', hinit', rfl, rfl⟩ := h'
        have hu := (hahead.advance hnew (by simp)).takes hty.1 hty'.1
        obtain ⟨rfl, hv⟩ := spansArguments_determined
          (fun e he => ih e (by simp [children, he])) hargs hargs' hu hbare
        obtain ⟨rfl, hw⟩ := spansInitializer_determined
          (fun e he => ih e (by simp [children, he])) hinit hinit' hv hbare'
        have hsame := hahead.current hnew (by simp)
        exact ⟨by rw [hsame, hw.nextId], hw.numbered⟩
      | _ => cases hbare

end Expr

namespace Stmt

open TokenStream

/-! ### Statements -/

/-- Any two readings of the statement and of one of its shape, from streams of which the
second goes on after the first, are one reading. -/
def Determined (st : Stmt) : Prop :=
  ∀ ⦃st' : Stmt⦄ ⦃more : List Located⦄ ⦃s t s' t' : TokenStream⦄, st.Spans s t →
    st'.Spans s' t' → Ahead more s s' → st'.bare = st.bare → st' = st ∧ Ahead more t t'

variable {more : List Located}

theorem SpansDeclared.current_ne_eof {ty : Option TypeExpr} {s t : TokenStream}
    (h : SpansDeclared ty s t) : s.current.token ≠ .eof := by
  cases ty with
  | none => simp [h.1]
  | some ty =>
    obtain ⟨name, rest, htokens⟩ := TypeExpr.tokens_eq_ident_cons h.2
    have hkinds := h.1.kinds
    rw [htokens, List.cons_append] at hkinds
    simp [current_of_kinds hkinds]

theorem SpansDeclared.ahead {ty : Option TypeExpr} {s t s' t' : TokenStream}
    (h : SpansDeclared ty s t) (h' : SpansDeclared ty s' t') (hahead : Ahead more s s') :
    Ahead more t t' := by
  cases ty with
  | none =>
    obtain ⟨hvar, rfl⟩ := h
    obtain ⟨-, rfl⟩ := h'
    exact hahead.advance hvar (by simp)
  | some ty => exact hahead.takes h.1 h'.1

theorem spansInit_determined {init init' : Option Expr} {s t s' t' : TokenStream}
    (h : SpansInit init s t) (h' : SpansInit init' s' t') (hahead : Ahead more s s')
    (hbare : init'.map Expr.bare = init.map Expr.bare) : init' = init ∧ Ahead more t t' := by
  cases init with
  | none =>
    cases init' with
    | some _ => cases hbare
    | none =>
      obtain rfl : t = s := h
      obtain rfl : t' = s' := h'
      exact ⟨rfl, hahead⟩
  | some e =>
    cases init' with
    | none => cases hbare
    | some e' =>
      injection hbare with hbare
      obtain ⟨rfl, ht⟩ := e.determined h.2 h'.2 (hahead.advance h.1 (by simp)) hbare
      exact ⟨rfl, ht⟩

theorem spansAll_determined_of : ∀ {stmts stmts' : List Stmt} {s t s' t' : TokenStream},
    (∀ p ∈ stmts, p.Determined) → SpansAll stmts s t → SpansAll stmts' s' t' → Ahead more s s' →
    stmts'.map bare = stmts.map bare → stmts' = stmts ∧ Ahead more t t' := by
  intro stmts
  induction stmts with
  | nil =>
    rintro stmts' s t s' t' _ rfl h' hahead hbare
    obtain rfl : stmts' = [] := by simpa using hbare
    obtain rfl : t' = s' := h'
    exact ⟨rfl, hahead⟩
  | cons first rest ih =>
    intro stmts' s t s' t' hdet h h' hahead hbare
    cases stmts' with
    | nil => cases hbare
    | cons first' rest' =>
      injection hbare with hbare hbares
      obtain ⟨u, hfirst, hrest⟩ := h
      obtain ⟨u', hfirst', hrest'⟩ := h'
      obtain ⟨rfl, hu⟩ := hdet first (by simp) hfirst hfirst' hahead hbare
      obtain ⟨rfl, ht⟩ := ih (fun p hp => hdet p (by simp [hp])) hrest hrest' hu hbares
      exact ⟨rfl, ht⟩

theorem spansElse_determined {other other' : Option Stmt} {s t s' t' : TokenStream}
    (hdet : ∀ p ∈ other, p.Determined) (h : SpansElse other s t) (h' : SpansElse other' s' t')
    (hahead : Ahead more s s') (hbare : other'.map bare = other.map bare) :
    other' = other ∧ Ahead more t t' := by
  cases other with
  | none =>
    cases other' with
    | some _ => cases hbare
    | none =>
      obtain ⟨-, rfl⟩ := h
      obtain ⟨-, rfl⟩ := h'
      exact ⟨rfl, hahead⟩
  | some p =>
    cases other' with
    | none => cases hbare
    | some p' =>
      injection hbare with hbare
      obtain ⟨rfl, ht⟩ := hdet p rfl h.2 h'.2 (hahead.advance h.1 (by simp)) hbare
      exact ⟨rfl, ht⟩

/-- **A statement that was read is known by its shape and its stream.** -/
theorem determined (st : Stmt) : st.Determined := by
  induction st using parts_induction with
  | step st ih =>
    intro st' more s t s' t' h h' hahead hbare
    cases st with
    | declare ty name init line =>
      cases st' with
      | declare ty' name' init' line' =>
        injection hbare with hty hname hbare
        subst hty hname
        obtain ⟨-, rfl, u, v, hty, hname, hinit, hsemi, rfl⟩ := h
        obtain ⟨-, rfl, u', v', hty', -, hinit', -, rfl⟩ := h'
        obtain ⟨rfl, hv⟩ := spansInit_determined hinit hinit'
          ((hty.ahead hty' hahead).advance hname (by simp)) hbare
        have hsame := hahead.current rfl hty.current_ne_eof
        exact ⟨by rw [hsame], hv.advance hsemi (by simp)⟩
      | _ => cases hbare
    | assign target value =>
      cases st' with
      | assign target' value' =>
        injection hbare with hbare hbare'
        obtain ⟨-, u, v, htarget, hassign, hvalue, hsemi, rfl⟩ := h
        obtain ⟨-, u', v', htarget', -, hvalue', -, rfl⟩ := h'
        obtain ⟨rfl, hu⟩ := target.determined htarget htarget' hahead hbare
        obtain ⟨rfl, hv⟩ :=
          value.determined hvalue hvalue' (hu.advance hassign (by simp)) hbare'
        exact ⟨rfl, hv.advance hsemi (by simp)⟩
      | _ => cases hbare
    | expr value =>
      cases st' with
      | expr value' =>
        injection hbare with hbare
        obtain ⟨-, u, hvalue, hsemi, rfl⟩ := h
        obtain ⟨-, u', hvalue', -, rfl⟩ := h'
        obtain ⟨rfl, hu⟩ := value.determined hvalue hvalue' hahead hbare
        exact ⟨rfl, hu.advance hsemi (by simp)⟩
      | _ => cases hbare
    | block stmts =>
      cases st' with
      | block stmts' =>
        rw [bare_block, bare_block] at hbare
        injection hbare with hbare
        obtain ⟨hopen, u, hall, hclose, rfl⟩ := h
        obtain ⟨-, u', hall', -, rfl⟩ := h'
        obtain ⟨rfl, hu⟩ := spansAll_determined_of
          (fun p hp => ih p (by simpa [parts] using hp)) hall hall'
          (hahead.advance hopen (by simp)) hbare
        exact ⟨rfl, hu.advance hclose (by simp)⟩
      | _ => cases hbare
    | branch cond thenBranch elseBranch =>
      cases st' with
      | branch cond' thenBranch' elseBranch' =>
        rw [bare_branch, bare_branch] at hbare
        injection hbare with hbare hbare' hbare''
        obtain ⟨hif, hopen, u, v, hcond, hclose, hthen, helse⟩ := h
        obtain ⟨-, -, u', v', hcond', -, hthen', helse'⟩ := h'
        have hs := (hahead.advance hif (by simp)).advance hopen (by simp)
        obtain ⟨rfl, hu⟩ := cond.determined hcond hcond' hs hbare
        obtain ⟨rfl, hv⟩ := ih thenBranch (by simp [parts]) hthen hthen'
          (hu.advance hclose (by simp)) hbare'
        obtain ⟨rfl, ht⟩ := spansElse_determined
          (fun p hp => ih p (by simpa [parts] using Or.inr hp)) helse helse' hv hbare''
        exact ⟨rfl, ht⟩
      | _ => cases hbare
    | foreach ty name iter body =>
      cases st' with
      | foreach ty' name' iter' body' =>
        injection hbare with hty hname hbare hbare'
        subst hty hname
        obtain ⟨hforeach, hopen, u, v, hty, hname, hin, hiter, hclose, hbody⟩ := h
        obtain ⟨-, -, u', v', hty', -, -, hiter', -, hbody'⟩ := h'
        have hs := (hahead.advance hforeach (by simp)).advance hopen (by simp)
        have hu := ((hty.ahead hty' hs).advance hname (by simp)).advance hin (by simp)
        obtain ⟨rfl, hv⟩ := iter.determined hiter hiter' hu hbare
        obtain ⟨rfl, ht⟩ := ih body (by simp [parts]) hbody hbody'
          (hv.advance hclose (by simp)) hbare'
        exact ⟨rfl, ht⟩
      | _ => cases hbare

/-- **Statements that were read are known by their shapes and their stream.** -/
theorem spansAll_determined {stmts stmts' : List Stmt} {s t s' t' : TokenStream}
    (h : SpansAll stmts s t) (h' : SpansAll stmts' s' t') (hahead : Ahead more s s')
    (hbare : stmts'.map bare = stmts.map bare) : stmts' = stmts ∧ Ahead more t t' :=
  spansAll_determined_of (fun p _ => p.determined) h h' hahead hbare

end Stmt

end ListSugar
