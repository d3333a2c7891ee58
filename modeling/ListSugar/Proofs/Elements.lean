/-
Which elements are recognised in a bracketed list literal.

The tokens of a literal are those of its elements, with commas between them and the signs
around them.  They are always read as the access that `bracketed` gives, so what is
recognised can be computed from the elements alone: as many as were written, in the same
order, and each of them whole, except that the first of several is cut to its right
operand if it is itself a comparison by `<`.

Whether it is recognised at all depends on its ends.  A first element that binds more tightly
than a comparison goes whole to the sign in front of it, and a last one that binds as tightly
goes whole to the sign behind it; with such ends every literal is recognised, the empty one
included.
-/
import ListSugar.Proofs.Bracketed
import ListSugar.Proofs.Grammar.Spanned

namespace ListSugar

namespace Expr

open TokenStream

/-! ### Elements that were read by themselves

The tokens of an element are read without what will stand around it, up to the end mark.
At the end mark no operand can be missing, so such an element is there, and so is its last
operand.
-/

/-- The tokens are read as the tree, and none of them is left. -/
def ReadFrom (e : Expr) (ts : List Token) : Prop :=
  ∃ s t : TokenStream, s.kinds = ts ∧ Parser.expr s = .ok e t ∧ t.kinds = []

theorem ReadFrom.wellFormed {e : Expr} {ts : List Token} (h : e.ReadFrom ts) : e.WellFormed := by
  obtain ⟨s, t, -, hread, -⟩ := h
  exact (Parser.expr_spans hread).wellFormed

theorem ReadFrom.resolved {e : Expr} {ts : List Token} (h : e.ReadFrom ts) : e.Resolved := by
  obtain ⟨s, t, -, hread, -⟩ := h
  exact (Parser.expr_spans hread).resolved

theorem ReadFrom.spells {e : Expr} {ts : List Token} (h : e.ReadFrom ts) : e.Spells ts := by
  obtain ⟨s, t, hs, hread, ht⟩ := h
  obtain ⟨us, hus, hkinds⟩ := (Parser.expr_spans hread).spells
  rw [hs, ht, List.append_nil] at hkinds
  rw [hkinds]
  exact hus

/-- At the end of the tokens no operand can be missing. -/
theorem ReadFrom.endsMissing {e : Expr} {ts : List Token} (h : e.ReadFrom ts) :
    e.endsMissing = false := by
  obtain ⟨s, t, -, hread, ht⟩ := h
  cases hends : e.endsMissing with
  | false => rfl
  | true =>
    have hcurrent := (Parser.expr_spans hread).endsOperand_of_endsMissing hends
    rw [current_token, ht] at hcurrent
    cases hcurrent

theorem isMissing_of_endsMissing {e : Expr} (h : e.endsMissing = false) : e.isMissing = false := by
  cases e with
  | missing m => cases h
  | _ => rfl

/-! ### The tokens of a bracketed literal -/

/-- The tokens of a bracketed literal, from the tokens of its elements. -/
def literalTokens (tss : List (List Token)) : List Token :=
  .symbol .lBracket :: .symbol .lt ::
    (List.intercalate [.symbol .comma] tss ++ [.symbol .gt, .symbol .rBracket])

theorem intercalate_comma (ts : List Token) (tss : List (List Token)) :
    List.intercalate [.symbol .comma] (ts :: tss) = ts ++ tss.flatMap (.symbol .comma :: ·) := by
  induction tss generalizing ts with
  | nil => simp
  | cons us tss ih =>
    rw [List.intercalate_cons_cons, ih us]
    simp

theorem spellsRest_flatMap : ∀ {parts : List (List Token × Expr)},
    (∀ p ∈ parts, p.2.Spells p.1) →
    SpellsRest (parts.map Prod.snd) ((parts.map Prod.fst).flatMap (.symbol .comma :: ·)) := by
  intro parts
  induction parts with
  | nil => intro _; rfl
  | cons p rest ih =>
    intro h
    refine ⟨p.1, (rest.map Prod.fst).flatMap (.symbol .comma :: ·), h p (by simp),
      ih fun q hq => h q (by simp [hq]), ?_⟩
    simp

theorem spellsAll_intercalate {p : List Token × Expr} {parts : List (List Token × Expr)}
    (h : ∀ q ∈ p :: parts, q.2.Spells q.1) :
    SpellsAll ((p :: parts).map Prod.snd)
      (List.intercalate [.symbol .comma] ((p :: parts).map Prod.fst)) := by
  rw [List.map_cons, List.map_cons, intercalate_comma]
  exact ⟨p.1, _, h p (by simp), spellsRest_flatMap fun q hq => h q (by simp [hq]), rfl⟩

/-- The tokens of the elements, with the signs around them, write the arguments. -/
theorem spellsAll_bracketedArgs {parts : List (List Token × Expr)} (hne : parts ≠ [])
    (h : ∀ p ∈ parts, p.2.Spells p.1) :
    SpellsAll (bracketedArgs (parts.map Prod.snd))
      (.symbol .lt :: (List.intercalate [.symbol .comma] (parts.map Prod.fst) ++ [.symbol .gt])) := by
  rcases ends_cases parts with rfl | ⟨only, rfl⟩ | ⟨first, middles, last, rfl⟩
  · exact absurd rfl hne
  · refine ⟨_, [], (h only (by simp)).opened.closed, rfl, ?_⟩
    simp
  · -- The signs belong to the tokens of the first and of the last argument.
    have hparts : ∀ q ∈ (.symbol .lt :: first.1, first.2.opened) ::
        (middles ++ [(last.1 ++ [.symbol .gt], last.2.closed)]), q.2.Spells q.1 := by
      intro q hq
      rcases (by simpa using hq : q = (.symbol .lt :: first.1, first.2.opened) ∨ q ∈ middles ∨
        q = (last.1 ++ [.symbol .gt], last.2.closed)) with rfl | hmiddle | rfl
      · exact (h first (by simp)).opened
      · exact h q (by simp [hmiddle])
      · exact (h last (by simp)).closed
    have hall := spellsAll_intercalate hparts
    rw [List.map_cons, List.map_append, List.map_singleton, bracketedArgs_range]
    rw [List.map_cons, List.map_append, List.map_singleton] at hall
    have htokens : List.intercalate [.symbol .comma] (((.symbol .lt :: first.1, first.2.opened) ::
          (middles ++ [(last.1 ++ [.symbol .gt], last.2.closed)])).map Prod.fst) =
        .symbol .lt :: (List.intercalate [.symbol .comma]
          ((first :: (middles ++ [last])).map Prod.fst) ++ [.symbol .gt]) := by
      rw [List.map_cons, List.map_cons, intercalate_comma, intercalate_comma]
      simp
    rw [htokens] at hall
    exact hall

theorem spells_bracketed {parts : List (List Token × Expr)} (hne : parts ≠ [])
    (h : ∀ p ∈ parts, p.2.Spells p.1) :
    (bracketed (parts.map Prod.snd)).Spells (literalTokens (parts.map Prod.fst)) := by
  refine ⟨[], _, rfl, spellsAll_bracketedArgs hne h, ?_⟩
  simp [literalTokens]

/-- Tokens that write the elements are read, with the signs around them, as the access with
the arguments of the elements. -/
theorem succeeds_bracketed {parts : List (List Token × Expr)} (hne : parts ≠ [])
    (hformed : ∀ p ∈ parts, p.2.WellFormed) (hresolved : ∀ p ∈ parts, p.2.Resolved)
    (hspells : ∀ p ∈ parts, p.2.Spells p.1) {s : TokenStream}
    (hs : s.kinds = literalTokens (parts.map Prod.fst)) :
    Parser.Succeeds (Parser.expr s) ((bracketed (parts.map Prod.snd)).ReadAs []) := by
  refine succeeds_expr (wellFormed_bracketed (List.forall_mem_map.mpr hformed))
    (resolved_bracketed (List.forall_mem_map.mpr hresolved))
    ⟨⟨_, spells_bracketed hne hspells, by rw [hs, List.append_nil]⟩, ?_, by simp⟩ ?_
  · intro hends
    cases hends
  · exact ⟨rfl, by simp [Level.all, Level.disjunction, Level.conjunction, Level.equality,
      Level.comparison, Level.sum, Level.product]⟩

/-- **A bracketed literal is read as the access with the arguments of its elements.** -/
theorem succeeds_literalTokens {parts : List (List Token × Expr)} (hne : parts ≠ [])
    (hparts : ∀ p ∈ parts, p.2.ReadFrom p.1) {s : TokenStream}
    (hs : s.kinds = literalTokens (parts.map Prod.fst)) :
    Parser.Succeeds (Parser.expr s) ((bracketed (parts.map Prod.snd)).ReadAs []) :=
  succeeds_bracketed hne (fun p hp => (hparts p hp).wellFormed)
    (fun p hp => (hparts p hp).resolved) (fun p hp => (hparts p hp).spells) hs

/-- The empty literal is read as if its only element were missing. -/
theorem succeeds_literalTokens_nil {s : TokenStream} (hs : s.kinds = literalTokens []) :
    Parser.Succeeds (Parser.expr s) ((bracketed []).ReadAs []) := by
  have hparts : ∀ p ∈ [(([] : List Token), missing .blank)], p = ([], missing .blank) := by
    simp
  refine @succeeds_bracketed [([], missing .blank)] (by simp) (fun p hp => ?_)
    (fun p hp => ?_) (fun p hp => ?_) s hs
  · rw [hparts p hp]
    exact wellFormed_missing _
  · rw [hparts p hp]
    exact resolved_missing _
  · rw [hparts p hp]
    rfl

/-! ### The recognised elements

The shape is recognised from the arguments, and the arguments are known from the elements.
So the recognised elements are computed, and compared with the ones that were written up
to marks.  They differ in one case, which the `iff` names.
-/

/-- What is recognised of a tree that stands behind the opening sign. -/
def behindSign : Expr → Expr
  | .binary _ .lt _ right => right
  | e => e

/-- What is recognised of the elements of a bracketed literal. -/
def recognised : List Expr → List Expr
  | first :: second :: rest => first.behindSign :: second :: rest
  | elements => elements

theorem recognised_range (first : Expr) (middles : List Expr) (last : Expr) :
    recognised (first :: (middles ++ [last])) = first.behindSign :: (middles ++ [last]) := by
  cases middles <;> rfl

theorem length_recognised (elements : List Expr) :
    (recognised elements).length = elements.length := by
  unfold recognised
  split <;> rfl

theorem behindSign_of_rank {e : Expr} (h : 4 ≤ e.rank) : e.behindSign = e := by
  cases e with
  | binary m op left right =>
    cases op with
    | lt =>
      have hrank : 4 ≤ 3 := h
      omega
    | _ => rfl
  | _ => rfl

theorem elements_of_single? {e : Expr} (hends : e.endsMissing = false) {shape : Delimited}
    (h : e.opened.closed.single? = some shape) : shape.elements = [e] := by
  obtain ⟨outer, inner, houter, hinner, hlen, rfl⟩ := single?_eq_some_iff.mp h
  obtain ⟨-, hleft, hright⟩ := closed_eq_gt houter
  have hlt : e.opened.comparison? .lt = some inner := by
    have hnone : outer.right.comparison? .lt = none := by
      cases hcase : outer.right with
      | missing m => rfl
      | _ => rw [hcase] at hright; cases hright
    rw [hleft, List.findSome?_cons, List.findSome?_cons, hnone] at hinner
    cases hcase : e.opened.comparison? .lt with
    | none => rw [hcase] at hinner; cases hinner
    | some found => rw [hcase] at hinner; exact hinner
  rcases opened_eq_lt (comparison?_eq_some_iff.mp hlt) with ⟨-, hmissing, rfl⟩ | ⟨left, rfl, hinner'⟩
  · have hthere := isMissing_of_endsMissing hends
    simp [Delimited.elements, presentOperands, hmissing, hthere]
  · -- The sign has gone to the left operand, so both operands are there.
    have hthere : inner.right.isMissing = false := isMissing_of_endsMissing hends
    have hopened := isMissing_opened left
    rw [← hinner'] at hopened
    simp [presentOperands, hopened, hthere] at hlen

theorem elements_of_range {first last : Expr} {middles : List Expr} {shape : Delimited}
    (h : delimitedArgs? (first.opened :: (middles ++ [last.closed])) = some shape) :
    shape.elements = first.behindSign :: (middles ++ [last]) := by
  obtain ⟨opening, closing, hopening, hclosing, rfl⟩ := delimitedArgs?_eq_some_iff.mp h
  obtain ⟨-, hlast, -⟩ := closed_eq_gt hclosing
  have hfirst : opening.right = first.behindSign := by
    rcases opened_eq_lt hopening with ⟨hrank, -, hright⟩ | ⟨left, rfl, -⟩
    · rw [hright, behindSign_of_rank hrank]
    · rfl
  rw [Delimited.elements, hfirst, hlast]

/-- **A bracketed literal that is recognised has the recognised elements.** -/
theorem eq_recognised {elements found : List Expr} (hne : elements ≠ [])
    (hends : ∀ e ∈ elements, e.endsMissing = false)
    (h : (bracketed elements).literalElements? = some found) : found = recognised elements := by
  obtain ⟨shape, hshape, rfl⟩ := Option.map_eq_some_iff.mp h
  rcases ends_cases elements with rfl | ⟨only, rfl⟩ | ⟨first, middles, last, rfl⟩
  · exact absurd rfl hne
  · exact elements_of_single? (hends only (by simp)) hshape
  · rw [recognised_range]
    rw [bracketed, bracketedArgs_range] at hshape
    exact elements_of_range hshape

/-- The first of several elements is itself a comparison by `<`. -/
def BeginWithLess : List Expr → Prop
  | .binary _ .lt _ _ :: _ :: _ => True
  | _ => False

theorem bare_ne_right (m : Mark) (op : BinaryOp) (left right : Expr) :
    right.bare ≠ (binary m op left right).bare := by
  intro h
  have hsize := congrArg sizeOf h
  simp only [bare, binary.sizeOf_spec] at hsize
  omega

theorem recognised_eq_iff (elements : List Expr) :
    (recognised elements).map bare = elements.map bare ↔ ¬ BeginWithLess elements := by
  unfold recognised
  split
  · rename_i first second rest
    unfold behindSign
    split
    · rename_i m left right
      have hne := bare_ne_right m .lt left right
      simp [BeginWithLess, hne]
    · rename_i hless
      simp only [true_iff]
      unfold BeginWithLess
      split
      · rename_i heq
        cases heq
        exact absurd rfl (hless _ _ _)
      · exact not_false
  · rename_i hshort
    simp only [true_iff]
    unfold BeginWithLess
    split
    · exact absurd rfl (hshort _ _ _)
    · exact not_false

/-- **The elements of a recognised literal are the written ones**, up to marks, unless the
first of several is a comparison by `<`; that one is cut to its right operand.  There are
always as many as were written. -/
theorem literalElements?_eq_written_iff {parts : List (List Token × Expr)} (hne : parts ≠ [])
    (hparts : ∀ p ∈ parts, p.2.ReadFrom p.1) {s t : TokenStream} {e : Expr}
    {elements : List Expr} (hs : s.kinds = literalTokens (parts.map Prod.fst))
    (hread : Parser.expr s = .ok e t) (helements : e.literalElements? = some elements) :
    elements.length = parts.length ∧
      elements.map bare = (recognised (parts.map Prod.snd)).map bare ∧
      (elements.map bare = (parts.map Prod.snd).map bare ↔
        ¬ BeginWithLess (parts.map Prod.snd)) := by
  obtain ⟨e', t', hread', hbare, -⟩ := succeeds_literalTokens hne hparts hs
  obtain ⟨rfl, rfl⟩ : e' = e ∧ t' = t := by
    rw [hread] at hread'
    cases hread'
    exact ⟨rfl, rfl⟩
  have hmatched : (bracketed (parts.map Prod.snd)).literalElements?.map (List.map bare) =
      some (elements.map bare) := by
    rw [← literalElements?_bare, ← hbare, literalElements?_bare, helements]
    rfl
  obtain ⟨found, hfound, heq⟩ := Option.map_eq_some_iff.mp hmatched
  have hends : ∀ e ∈ parts.map Prod.snd, e.endsMissing = false := by
    intro e he
    obtain ⟨p, hp, rfl⟩ := List.mem_map.mp he
    exact (hparts p hp).endsMissing
  obtain rfl := eq_recognised (by simpa using hne) hends hfound
  refine ⟨?_, heq.symm, ?_⟩
  · have hlen := congrArg List.length heq
    rw [List.length_map, List.length_map, length_recognised, List.length_map] at hlen
    exact hlen.symm
  · rw [← heq]
    exact recognised_eq_iff _

/-- In `[<a < b, c>]` the elements `b` and `c` are recognised. -/
theorem literalElements?_eq_written_iff_less :
    ∃ (first second e : Expr) (t : TokenStream) (elements : List Expr),
      first.ReadFrom [.ident "a", .symbol .lt, .ident "b"] ∧ second.ReadFrom [.ident "c"] ∧
      Parser.expr ⟨(literalTokens [[.ident "a", .symbol .lt, .ident "b"], [.ident "c"]]).map
        (⟨·, .start⟩), .start, 0⟩ = .ok e t ∧
      e.literalElements? = some elements ∧
      elements.map bare = [.ident .blank "b", .ident .blank "c"] ∧
      elements.map bare ≠ [first, second].map bare := by
  let first : Expr :=
    .binary ⟨2, .start⟩ .lt (.ident ⟨0, .start⟩ "a") (.ident ⟨1, .start⟩ "b")
  let second : Expr := .ident ⟨0, .start⟩ "c"
  have hfirst : first.ReadFrom [.ident "a", .symbol .lt, .ident "b"] :=
    ⟨⟨[.ident "a", .symbol .lt, .ident "b"].map (⟨·, .start⟩), .start, 0⟩, ⟨[], .start, 3⟩,
      rfl, rfl, rfl⟩
  have hsecond : second.ReadFrom [.ident "c"] :=
    ⟨⟨[.ident "c"].map (⟨·, .start⟩), .start, 0⟩, ⟨[], .start, 1⟩, rfl, rfl, rfl⟩
  have hparts : ∀ p ∈ [([Token.ident "a", .symbol .lt, .ident "b"], first),
      ([.ident "c"], second)], p.2.ReadFrom p.1 := by
    simp [hfirst, hsecond]
  obtain ⟨e, t, hread, hbare, -⟩ := succeeds_literalTokens (by simp) hparts
    (s := ⟨(literalTokens [[.ident "a", .symbol .lt, .ident "b"], [.ident "c"]]).map
      (⟨·, .start⟩), .start, 0⟩) (by decide)
  have hmatched : e.literalElements?.map (List.map bare) =
      some [.ident .blank "b", .ident .blank "c"] := by
    rw [← literalElements?_bare, hbare]
    rfl
  obtain ⟨elements, helements, heq⟩ := Option.map_eq_some_iff.mp hmatched
  have hwritten := literalElements?_eq_written_iff (by simp) hparts (by decide) hread helements
  exact ⟨first, second, e, t, elements, hfirst, hsecond, hread, helements, heq,
    fun hsame => hwritten.2.2.mp hsame trivial⟩

/-! ### Literals whose ends the signs take whole

With such ends the first argument is a comparison by `<` and the last one is a comparison
by `>`, or the only one is both.  Nothing is asked of the elements between.
-/

/-- The signs of a literal take its first and its last element whole. -/
structure FitSigns (elements : List Expr) : Prop where
  /-- The first element is no comparison, no equality and no logical operation. -/
  first : ∀ m op left right, elements.head? = some (.binary m op left right) →
    op ∉ [.lt, .gt, .lte, .gte, .eq, .neq, .and, .or]
  /-- The last of several elements is no equality and no logical operation. -/
  last : 2 ≤ elements.length → ∀ m op left right,
    elements.getLast? = some (.binary m op left right) → op ∉ [.eq, .neq, .and, .or]

theorem FitSigns.rank_head {elements : List Expr} (h : FitSigns elements) {e : Expr}
    (he : elements.head? = some e) : 4 ≤ e.rank := by
  cases e with
  | binary m op left right =>
    have hop := h.first m op left right he
    cases op <;> simp_all [rank, BinaryOp.rank]
  | _ => simp [rank]

theorem FitSigns.rank_getLast {elements : List Expr} (h : FitSigns elements)
    (hlen : 2 ≤ elements.length) {e : Expr} (he : elements.getLast? = some e) : 3 ≤ e.rank := by
  cases e with
  | binary m op left right =>
    have hop := h.last hlen m op left right he
    cases op <;> simp_all [rank, BinaryOp.rank]
  | _ => simp [rank]

/-- An element that the signs take whole is recognised as the only one. -/
theorem single?_opened_closed {e : Expr} (hrank : 4 ≤ e.rank) (hthere : e.isMissing = false) :
    e.opened.closed.single? = some (.single (some e)) := by
  have hopened : 3 ≤ e.opened.rank := by
    rw [rank_opened]
    omega
  have hmissing : (missing .blank).isMissing = true := rfl
  have hpresent : presentOperands ⟨.blank, .missing .blank, e⟩ = [e] := by
    simp [presentOperands, hmissing, hthere]
  rw [closed_of_rank hopened, opened_of_rank hrank]
  refine single?_eq_some_iff.mpr ⟨⟨.blank, .binary .blank .lt (.missing .blank) e, .missing .blank⟩,
    ⟨.blank, .missing .blank, e⟩, rfl, rfl, ?_, ?_⟩
  · rw [hpresent]
    exact Nat.le_refl _
  · rw [hpresent]
    rfl

/-- **A literal whose ends the signs take whole is recognised with all its elements.** -/
theorem literalElements?_bracketed {elements : List Expr} (hfit : FitSigns elements)
    (hthere : ∀ e ∈ elements, e.isMissing = false) :
    (bracketed elements).literalElements? = some elements := by
  refine Option.map_eq_some_iff.mpr ?_
  rcases ends_cases elements with rfl | ⟨only, rfl⟩ | ⟨first, middles, last, rfl⟩
  · exact ⟨.single none, rfl, rfl⟩
  · have hrank := hfit.rank_head (e := only) rfl
    exact ⟨_, single?_opened_closed hrank (hthere only (by simp)), rfl⟩
  · have hfirst := hfit.rank_head (e := first) rfl
    have hlast : 3 ≤ last.rank := by
      refine hfit.rank_getLast (by simp) ?_
      rw [← List.cons_append, List.getLast?_concat]
    refine ⟨.range ⟨.blank, .missing .blank, first⟩ middles ⟨.blank, last, .missing .blank⟩, ?_, rfl⟩
    show delimitedArgs? (bracketedArgs (first :: (middles ++ [last]))) = _
    rw [bracketedArgs_range]
    refine delimitedArgs?_eq_some_iff.mpr ⟨_, _, ?_, ?_, rfl⟩
    · exact opened_of_rank hfirst
    · exact closed_of_rank hlast

/-- **Every literal with elements that the signs can wrap is recognised.**  Its tokens are
read to their end as an access without a receiver, and the recognised elements are the
written ones, up to marks; none for the empty literal. -/
theorem literalElements?_of_fitSigns {parts : List (List Token × Expr)}
    (hparts : ∀ p ∈ parts, p.2.ReadFrom p.1) (hfit : FitSigns (parts.map Prod.snd))
    {s : TokenStream} (hs : s.kinds = literalTokens (parts.map Prod.fst)) :
    ∃ m receiver args t elements, Parser.expr s = .ok (.index m receiver args) t ∧
      t.kinds = [] ∧ receiver.isMissing = true ∧
      (index m receiver args).literalElements? = some elements ∧
      elements.map bare = (parts.map Prod.snd).map bare := by
  have hread : Parser.Succeeds (Parser.expr s) ((bracketed (parts.map Prod.snd)).ReadAs []) := by
    by_cases hne : parts = []
    · subst hne
      exact succeeds_literalTokens_nil hs
    · exact succeeds_literalTokens hne hparts hs
  obtain ⟨e, t, hread, hbare, hrest⟩ := hread
  have hthere : ∀ e ∈ parts.map Prod.snd, e.isMissing = false :=
    List.forall_mem_map.mpr fun p hp => isMissing_of_endsMissing (hparts p hp).endsMissing
  have hmatched : e.literalElements?.map (List.map bare) =
      some ((parts.map Prod.snd).map bare) := by
    rw [← literalElements?_bare, hbare, literalElements?_bare, literalElements?_bracketed hfit hthere]
    rfl
  obtain ⟨elements, helements, heq⟩ := Option.map_eq_some_iff.mp hmatched
  cases e with
  | index m receiver args =>
    have hreceiver : receiver.bare = .missing .blank := by
      simp only [bracketed, bare] at hbare
      injection hbare
    refine ⟨m, receiver, args, t, elements, hread, hrest, ?_, helements, heq⟩
    rw [← isMissing_bare, hreceiver]
    rfl
  | _ => cases helements

/-- In `[<-a, b < c>]` the elements `-a` and `b < c` are recognised. -/
theorem literalElements?_of_fitSigns_comparison :
    ∃ (first second : Expr) (m : Mark) (receiver : Expr) (args : List Expr) (t : TokenStream)
      (elements : List Expr), first.ReadFrom [.symbol .minus, .ident "a"] ∧
      second.ReadFrom [.ident "b", .symbol .lt, .ident "c"] ∧ FitSigns [first, second] ∧
      Parser.expr ⟨(literalTokens [[.symbol .minus, .ident "a"],
        [.ident "b", .symbol .lt, .ident "c"]]).map (⟨·, .start⟩), .start, 0⟩ =
          .ok (.index m receiver args) t ∧
      (index m receiver args).literalElements? = some elements ∧
      elements.map bare = [.unary .blank .neg (.ident .blank "a"),
        .binary .blank .lt (.ident .blank "b") (.ident .blank "c")] := by
  let first : Expr := .unary ⟨1, .start⟩ .neg (.ident ⟨0, .start⟩ "a")
  let second : Expr :=
    .binary ⟨2, .start⟩ .lt (.ident ⟨0, .start⟩ "b") (.ident ⟨1, .start⟩ "c")
  have hfirst : first.ReadFrom [.symbol .minus, .ident "a"] :=
    ⟨⟨[.symbol .minus, .ident "a"].map (⟨·, .start⟩), .start, 0⟩, ⟨[], .start, 2⟩, rfl, rfl, rfl⟩
  have hsecond : second.ReadFrom [.ident "b", .symbol .lt, .ident "c"] :=
    ⟨⟨[.ident "b", .symbol .lt, .ident "c"].map (⟨·, .start⟩), .start, 0⟩, ⟨[], .start, 3⟩,
      rfl, rfl, rfl⟩
  have hparts : ∀ p ∈ [([Token.symbol .minus, .ident "a"], first),
      ([.ident "b", .symbol .lt, .ident "c"], second)], p.2.ReadFrom p.1 := by
    simp [hfirst, hsecond]
  have hfit : FitSigns [first, second] := by
    refine ⟨fun m op left right h => ?_, fun _ m op left right h => ?_⟩
    · simp [first] at h
    · simp [second] at h
      simp [← h.2.1]
  obtain ⟨m, receiver, args, t, elements, hread, -, -, helements, heq⟩ :=
    literalElements?_of_fitSigns hparts hfit (s := ⟨(literalTokens [[.symbol .minus, .ident "a"],
      [.ident "b", .symbol .lt, .ident "c"]]).map (⟨·, .start⟩), .start, 0⟩) (by decide)
  exact ⟨first, second, m, receiver, args, t, elements, hfirst, hsecond, hfit, hread, helements, heq⟩

end Expr

end ListSugar
