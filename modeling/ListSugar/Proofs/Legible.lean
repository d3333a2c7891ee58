/-
What can be read was written from something that can be written.

Two things have a text that is never read back: a type with a gap, whose mark begins no
piece at all, and a number that is not finite, which is written as a name with a number for a
member.  No program has such a member, so a text is called *legible* if it is cut into tokens
and each point among them stands in front of a name.

A legible text stays so behind its first piece.  Going through the text of a tree piece by
piece, each part of the tree is found to be one that can be written, and what follows the
tree to be legible in its turn.
-/
import ListSugar.Proofs.Appended
import ListSugar.Proofs.Grammar.Placed
import ListSugar.Proofs.Grammar.Points
import ListSugar.Proofs.RoundTrip

namespace ListSugar

open Scanner

/-! ### Legible texts

The round trip is turned around here: it is known that the text is read, and asked what it
was written from.  `Shows` puts this as a step.  A piece at the front of a legible text
has the wanted property, and the text behind it is legible again.
-/

/-- The text is cut into tokens, and each point among them stands in front of a name. -/
def Legible (cs : List Char) : Prop := ∃ ts, Lexes cs ts ∧ ts.IsChain Token.Precedes

theorem legible_white_iff {c : Char} (hc : Text.isWhiteSpace c = true) {rest : List Char} :
    Legible (c :: rest) ↔ Legible rest :=
  exists_congr fun _ => and_congr_left fun _ => lexes_white_iff hc

theorem Legible.space {rest : List Char} (h : Legible (' ' :: rest)) : Legible rest :=
  (legible_white_iff (by decide)).mp h

/-- **A legible text stays so behind its first token.** -/
theorem Legible.behind {text rest : List Char} {t : Token} (h : Legible text)
    (hstarts : Starts text t rest) : Legible rest := by
  obtain ⟨all, hlexes, hchain⟩ := h
  obtain ⟨ts, rfl, hts⟩ := hstarts.lexes_iff.mp hlexes
  exact ⟨ts, hts, hchain.of_cons⟩

/-- Behind a point there is a name. -/
theorem Legible.behind_point {text middle rest : List Char} {u : Token} (h : Legible text)
    (hpoint : Starts text (.symbol .dot) middle) (hnext : Starts middle u rest) :
    ∃ name, u = .ident name := by
  obtain ⟨all, hlexes, hchain⟩ := h
  obtain ⟨ts, rfl, hts⟩ := hpoint.lexes_iff.mp hlexes
  obtain ⟨us, rfl, -⟩ := hnext.lexes_iff.mp hts
  exact (List.isChain_cons_cons.mp hchain).1 rfl

/-- The mark of a gap begins no piece. -/
theorem not_legible_gap (rest : List Char) : ¬ Legible ('?' :: rest) := by
  have hfind : Symbol.all.find? (·.spelling.isPrefixOf ('?' :: rest)) = none := by
    simp [Symbol.all, Symbol.spelling]
  obtain ⟨fault, hfault⟩ : ∃ fault, (piece '?' rest).value = .error fault := by
    unfold piece
    rw [if_neg (by decide), if_neg (by simp), if_neg (by simp), if_neg (by decide),
      if_neg (by decide), if_neg (by decide), if_neg (by decide), symbol, hfind]
    exact ⟨_, rfl⟩
  rintro ⟨ts, hlexes, -⟩
  cases hlexes with
  | gap hgap _ =>
    rw [hfault] at hgap
    cases hgap
  | token htoken _ =>
    rw [hfault] at htoken
    cases htoken

/-- If the text is followed by one that closes it, and the whole is legible, then `P` holds
and what follows is legible. -/
def Shows (text : String) (P : Prop) : Prop :=
  ∀ ⦃rest : List Char⦄, Closes rest → Legible (text.toList ++ rest) → P ∧ Legible rest

theorem Shows.empty : Shows "" True := fun _ _ h => ⟨trivial, h⟩

theorem Shows.imp {text : String} {P Q : Prop} (h : Shows text P) (hPQ : P → Q) : Shows text Q :=
  fun _ hrest hlegible => ⟨hPQ (h hrest hlegible).1, (h hrest hlegible).2⟩

/-- What an empty text shows holds. -/
theorem Shows.of_empty {P : Prop} (h : Shows "" P) : P := (h .nil ⟨[], .nil, .nil⟩).1

/-- Texts with commas between them show what each of them shows. -/
theorem Shows.listing {α : Type} {text : α → String} {P : α → Prop} : ∀ {as : List α},
    (∀ a ∈ as, Shows (text a) (P a)) → Shows (Text.listing (as.map text)) (∀ a ∈ as, P a) := by
  intro as
  induction as with
  | nil => exact fun _ => Shows.empty.imp (by simp)
  | cons first others ih =>
    intro h
    cases others with
    | nil => exact (h first (by simp)).imp fun hfirst => by simpa using hfirst
    | cons second more =>
      intro rest hrest hlegible
      have htext : (Text.listing ((first :: second :: more).map text)).toList ++ rest
          = (text first).toList ++ (',' :: ' ' ::
            ((Text.listing ((second :: more).map text)).toList ++ rest)) := by
        simp [Text.listing]
      rw [htext] at hlegible
      obtain ⟨hfirst, hlegible⟩ := h first (by simp) (.separator (by decide)) hlegible
      have hcomma := hlegible.behind (.symbol .comma trivial)
      obtain ⟨hothers, hlegible⟩ := ih (fun a ha => h a (by simp [ha])) hrest hcomma.space
      exact ⟨List.forall_mem_cons.mpr ⟨hfirst, hothers⟩, hlegible⟩

/-- If the text is followed by another one, and the whole is legible, then `P` holds and what
follows is legible. -/
def ShowsLines (text : String) (P : Prop) : Prop :=
  ∀ ⦃rest : List Char⦄, Legible (text.toList ++ rest) → P ∧ Legible rest

/-- A text with a space behind it may be followed by anything. -/
theorem Shows.before_space {text : String} {P : Prop} (h : Shows text P) :
    ShowsLines (if text = "" then "" else text ++ " ") P := by
  intro rest hlegible
  split at hlegible
  · next hempty => exact ⟨Shows.of_empty (hempty ▸ h), hlegible⟩
  · rw [String.toList_append, List.append_assoc] at hlegible
    obtain ⟨hP, hlegible⟩ := h (.separator (by decide)) hlegible
    exact ⟨hP, hlegible.space⟩

/-- A text behind a space. -/
theorem Shows.behind_space {text : String} {P : Prop} (h : Shows text P) :
    Shows (if text = "" then "" else " " ++ text) P := by
  intro rest hrest hlegible
  split at hlegible
  · next hempty => exact ⟨Shows.of_empty (hempty ▸ h), hlegible⟩
  · rw [String.toList_append, List.append_assoc] at hlegible
    exact h hrest hlegible.space

/-- A first token that is no `=` or `==` does not begin with that character. -/
theorem Starts.head?_ne_equal {text rest : List Char} {t : Token} (h : Starts text t rest)
    (heq : t ≠ .symbol .eq) (hassign : t ≠ .symbol .assign) : text.head? ≠ some '=' := by
  obtain ⟨c, cs, rfl, hvalue, -⟩ := h
  intro hc
  obtain rfl : c = '=' := by simpa using hc
  rcases piece_equal cs with hp | hp
  · rw [hp] at hvalue
    cases hvalue
    exact heq rfl
  · rw [hp] at hvalue
    cases hvalue
    exact hassign rfl

theorem IsName.head?_ne_equal {name : String} (h : IsName name) (rest : List Char) :
    (name.toList ++ rest).head? ≠ some '=' := by
  obtain ⟨c, cs, hcons, hstart, -⟩ := h.starts
  rw [hcons]
  intro hc
  obtain rfl : c = '=' := by simpa using hc
  exact absurd hstart (by decide)

/-! ### Types -/

namespace TypeExpr

theorem head?_render_ne {ty : TypeExpr} : ty.Named → ∀ rest,
    (ty.render.toList ++ rest).head? ≠ some '=' := by
  induction ty using args_induction with
  | named name args ih =>
    intro h rest
    have hfirst := (named_iff.mp h).1
    cases args with
    | nil => exact hfirst.head?_ne_equal rest
    | cons first others =>
      rw [render, String.append_assoc, String.append_assoc, String.toList_append, List.append_assoc]
      exact hfirst.head?_ne_equal _
  | array element ih =>
    intro h rest
    rw [render, String.toList_append, List.append_assoc]
    exact ih (fun x hx => h x (by simp [tokens, hx])) _
  | unresolved =>
    intro _ rest
    simp [render]

theorem head?_listing_ne {first : TypeExpr} (h : first.Named) {others : List TypeExpr}
    (rest : List Char) :
    ((Text.listing (renderAll (first :: others))).toList ++ rest).head? ≠ some '=' := by
  cases others with
  | nil => exact head?_render_ne h rest
  | cons second more =>
    rw [renderAll, renderAll, Text.listing.eq_3 _ _ (by simp), String.append_assoc,
      String.toList_append, List.append_assoc]
    exact head?_render_ne h _

theorem renderAll_eq (args : List TypeExpr) : renderAll args = args.map render := by
  induction args with
  | nil => rfl
  | cons first others ih => rw [renderAll, ih, List.map_cons]

/-- **A type whose text is legible is known in every part.** -/
theorem shows {ty : TypeExpr} : ty.Named → Shows ty.render (ty.isResolved = true) := by
  induction ty using args_induction with
  | named name args ih =>
    intro hnamed
    obtain ⟨hname, hargs⟩ := named_iff.mp hnamed
    intro rest hrest hlegible
    cases args with
    | nil => exact ⟨rfl, hlegible.behind (.ident hname hrest.word)⟩
    | cons first others =>
      have hlist : Shows (Text.listing (renderAll (first :: others)))
          (∀ a ∈ first :: others, a.isResolved = true) := by
        rw [renderAll_eq]
        exact .listing fun a ha => ih a ha (hargs a ha)
      have htext : (named name (first :: others)).render.toList ++ rest
          = name.toList ++ ('<' :: ((Text.listing (renderAll (first :: others))).toList
            ++ ('>' :: rest))) := by
        simp [render, renderAll]
      rw [htext] at hlegible
      have hopen := hlegible.behind (.ident hname (by simp; decide))
      -- The sign stands alone, since no type begins with the character that would make it `<=`.
      have hends : Symbol.Ends .lt ((Text.listing (renderAll (first :: others))).toList
          ++ ('>' :: rest)) :=
        head?_listing_ne (hargs first (by simp)) _
      obtain ⟨hres, hlegible⟩ := hlist (.separator (by decide)) (hopen.behind (.symbol .lt hends))
      exact ⟨allResolved_iff.mpr hres, hlegible.behind (.symbol .gt (hrest.ends .gt))⟩
  | array element ih =>
    intro hnamed rest hrest hlegible
    have htext : (TypeExpr.array element).render.toList ++ rest
        = element.render.toList ++ ('[' :: ']' :: rest) := by
      simp [render]
    rw [htext] at hlegible
    obtain ⟨hres, hlegible⟩ := ih (fun x hx => hnamed x (by simp [tokens, hx]))
      (.separator (by decide)) hlegible
    have hopen := hlegible.behind (.symbol .lBracket trivial)
    exact ⟨hres, hopen.behind (.symbol .rBracket trivial)⟩
  | unresolved =>
    intro _ rest _ hlegible
    exact absurd hlegible (not_legible_gap rest)

end TypeExpr

/-! ### Literals -/

/-- A number that is not finite is written as a name and a fraction of zero. -/
theorem Double.sourceText_of_not_finite {value : Double} (hfin : value.isFinite = false)
    (hsign : value.isNegative = false) :
    ∃ name, IsName name ∧ value.sourceText.toList = name.toList ++ ['.', '0'] := by
  have hmag : infinityPattern ≤ value.magnitude := by simpa [isFinite] using hfin
  unfold sourceText plainText
  by_cases hnan : value.isNaN = true
  · refine ⟨"NaN", by decide, ?_⟩
    rw [if_pos hnan]
    rfl
  · have hinf : value.isInfinite = true := by
      have hle : value.magnitude ≤ infinityPattern := by simpa [isNaN] using hnan
      simpa [isInfinite] using Nat.le_antisymm hle hmag
    refine ⟨"inf", by decide, ?_⟩
    rw [if_neg hnan, if_pos hinf, signText, hsign]
    rfl

/-- **The text of a number that is not finite is not legible.** -/
theorem Double.not_legible_sourceText {value : Double} (hfin : value.isFinite = false)
    (hsign : value.isNegative = false) {rest : List Char} (hrest : Closes rest) :
    ¬ Legible (value.sourceText.toList ++ rest) := by
  intro hlegible
  obtain ⟨name, hname, htext⟩ := sourceText_of_not_finite hfin hsign
  rw [htext, List.append_assoc] at hlegible
  have hpoint := hlegible.behind (.ident hname (by simp; decide))
  -- What stands behind the point is the number zero, and that is no name.
  have hzero : Starts ((toString (0 : Int)).toList ++ rest) (.int 0) rest := .int (by decide) hrest
  obtain ⟨x, hx⟩ := hpoint.behind_point (.symbol .dot trivial) hzero
  cases hx

/-- Of the literals that the scanner gives, only a number that is not finite cannot be
written. -/
theorem Literal.writable_or {value : Literal} (h : value.token.Scanned) :
    value.token.Writable ∨ ∃ number, value = .double number ∧ number.isFinite = false := by
  cases value with
  | double number =>
    by_cases hfin : number.isFinite = true
    · exact Or.inl ⟨h, by rintro _ ⟨⟩; exact hfin⟩
    · exact Or.inr ⟨number, rfl, by simpa using hfin⟩
  | _ => exact Or.inl ⟨h, by rintro _ ⟨⟩⟩

theorem Literal.head?_render_ne {value : Literal} (h : value.token.Scanned) {rest : List Char}
    (hrest : Closes rest) : (value.render.toList ++ rest).head? ≠ some '=' := by
  rcases writable_or h with hwritable | ⟨number, rfl, hfin⟩
  · refine (starts hwritable hrest).head?_ne_equal ?_ ?_ <;> cases value <;> simp [token]
  · obtain ⟨name, hname, htext⟩ := Double.sourceText_of_not_finite hfin h
    rw [render, htext, List.append_assoc]
    exact hname.head?_ne_equal _

/-! ### Trees -/

namespace Expr

/-- The tree has nothing that cannot be written so that it is read back. -/
def Sound (e : Expr) : Prop := e.Resolved ∧ e.Writable

theorem sound_of_parts {e : Expr} (hnode : e.ResolvedNode) (hwords : ∀ t ∈ e.words, t.Writable)
    (hparts : ∀ c ∈ e.children, c.Sound) : e.Sound := by
  refine ⟨resolved_iff.mpr ⟨hnode, fun c hc => (hparts c hc).1⟩, fun t ht => ?_⟩
  rcases has_iff.mp ht with hword | ⟨c, hc, hword⟩
  · exact hwords t hword
  · exact (hparts c hc).2 t hword

theorem writable_of_mem_words {e : Expr} (hscanned : ∀ t, e.Has t → t.Scanned)
    (hne : ∀ m value, e ≠ .literal m (.double value)) : ∀ t ∈ e.words, t.Writable := by
  intro t ht
  refine ⟨hscanned t (has_iff.mpr (Or.inl ht)), ?_⟩
  rintro value rfl
  obtain ⟨m, heq⟩ := Program.double_of_mem_words ht
  exact absurd heq (hne m value)

theorem shows_literal (m : Mark) {value : Literal} (hscanned : value.token.Scanned) :
    Shows value.render (literal m value).Sound := by
  intro rest hrest hlegible
  rcases Literal.writable_or hscanned with hwritable | ⟨number, rfl, hfin⟩
  · refine ⟨sound_of_parts trivial ?_ (by simp [children]), ?_⟩
    · simpa [words] using hwritable
    · exact hlegible.behind (Literal.starts hwritable hrest)
  · exact absurd hlegible (Double.not_legible_sourceText hfin hscanned hrest)

/-- A tree that a sign can stand before does not begin with `=`. -/
theorem head?_render_ne {e : Expr} : e.WellFormed → (∀ t, e.Has t → t.Scanned) → 6 ≤ e.rank →
    ∀ {rest}, Closes rest → (e.render.toList ++ rest).head? ≠ some '=' := by
  induction e using children_induction with
  | step e ih =>
    intro hwf hscanned hrank rest hrest
    have hpart : ∀ c ∈ e.children, c.rank = 7 → ∀ {rest}, Closes rest →
        (c.render.toList ++ rest).head? ≠ some '=' := fun c hc hc7 =>
      ih c hc (hwf.child hc) (fun t ht => hscanned t (has_iff.mpr (Or.inr ⟨c, hc, ht⟩))) (by omega)
    have hword : ∀ t ∈ e.words, t.Scanned := fun t ht => hscanned t (has_iff.mpr (Or.inl ht))
    cases e with
    | missing m => exact hrest.equal
    | literal m value => exact Literal.head?_render_ne (hword _ (by simp [words])) hrest
    | ident m name =>
      have hname : IsName name := hword (.ident name) (by simp [words])
      exact hname.head?_ne_equal rest
    | paren m inner => simp [render]
    | unary m op operand => cases op <;> simp [render, UnaryOp.spelling]
    | binary m op left right =>
      have hlt := op.rank_lt
      have hle : 6 ≤ op.rank := hrank
      omega
    | member m receiver name =>
      have hname : IsName name := hword (.ident name) (by simp [words])
      have h := hpart receiver (by simp [children]) hwf.formed.1 (closes_member hname rest)
      simpa [render] using h
    | call m callee args =>
      have hargs : Closes ('(' :: ((Text.listing (renderAll args)).toList ++ ')' :: rest)) :=
        .separator (by decide)
      simpa [render] using hpart callee (by simp [children]) hwf.formed.1 hargs
    | index m receiver args =>
      have hargs : Closes ('[' :: ((Text.listing (renderAll args)).toList ++ ']' :: rest)) :=
        .separator (by decide)
      simpa [render] using hpart receiver (by simp [children]) hwf.formed.1 hargs
    | new m ty args init =>
      rw [render_new]
      simp

/-! ### Parts of trees -/

theorem renderAll_eq (es : List Expr) : renderAll es = es.map render := by
  induction es with
  | nil => rfl
  | cons e es ih => rw [renderAll, ih, List.map_cons]

theorem shows_listing {es : List Expr} (h : ∀ e ∈ es, Shows e.render e.Sound) :
    Shows (Text.listing (renderAll es)) (∀ e ∈ es, e.Sound) := by
  rw [renderAll_eq]
  exact .listing h

/-- A list of trees between brackets. -/
theorem sound_enclosed {es : List Expr} (h : ∀ e ∈ es, Shows e.render e.Sound) {rest : List Char} :
    (Legible ('(' :: ((Text.listing (renderAll es)).toList ++ ')' :: rest)) →
      (∀ e ∈ es, e.Sound) ∧ Legible rest) ∧
    (Legible ('[' :: ((Text.listing (renderAll es)).toList ++ ']' :: rest)) →
      (∀ e ∈ es, e.Sound) ∧ Legible rest) := by
  constructor
  · intro hlegible
    have hinner := hlegible.behind (.symbol .lParen trivial)
    obtain ⟨hsound, hclose⟩ := shows_listing h (.separator (by decide)) hinner
    exact ⟨hsound, hclose.behind (.symbol .rParen trivial)⟩
  · intro hlegible
    have hinner := hlegible.behind (.symbol .lBracket trivial)
    obtain ⟨hsound, hclose⟩ := shows_listing h (.separator (by decide)) hinner
    exact ⟨hsound, hclose.behind (.symbol .rBracket trivial)⟩

theorem shows_arguments {args : Option (List Expr)}
    (h : ∀ e ∈ args.getD [], Shows e.render e.Sound) :
    Shows (argumentsText args) (∀ e ∈ args.getD [], e.Sound) := by
  cases args with
  | none => exact Shows.empty.imp (by simp)
  | some es =>
    intro rest _ hlegible
    refine (sound_enclosed h).1 ?_
    simpa [argumentsText] using hlegible

theorem shows_initializer {init : Option (List Expr)}
    (h : ∀ e ∈ init.getD [], Shows e.render e.Sound) :
    Shows (initializerText init) (∀ e ∈ init.getD [], e.Sound) := by
  cases init with
  | none => exact Shows.empty.imp (by simp)
  | some es =>
    intro rest _ hlegible
    cases es with
    | nil =>
      have hopen : Legible (' ' :: '\x7b' :: ' ' :: '\x7d' :: rest) := hlegible
      have hclose := (hopen.space.behind (.symbol .lBrace trivial)).space
      exact ⟨by simp, hclose.behind (.symbol .rBrace trivial)⟩
    | cons e es =>
      have hopen : Legible (' ' :: '\x7b' :: ' ' ::
          ((Text.listing (renderAll (e :: es))).toList ++ ' ' :: '\x7d' :: rest)) := by
        simpa [initializerText, renderInitializer, renderAll] using hlegible
      have hinner := (hopen.space.behind (.symbol .lBrace trivial)).space
      obtain ⟨hsound, hclose⟩ := shows_listing h (.separator (by decide)) hinner
      exact ⟨hsound, hclose.space.behind (.symbol .rBrace trivial)⟩

theorem shows_binary {op : BinaryOp} {left right : Expr} (hleft : Shows left.render left.Sound)
    (hright : Shows right.render right.Sound) :
    Shows (renderBinary op left.render right.render) (left.Sound ∧ right.Sound) := by
  intro rest hrest hlegible
  rw [renderBinary, String.append_assoc, String.toList_append, String.toList_append,
    op.toList_spelling, List.append_assoc, List.append_assoc] at hlegible
  obtain ⟨hleft, hlegible⟩ := hleft.before_space hlegible
  have hcloses : Closes ((if right.render = "" then "" else " " ++ right.render).toList
      ++ rest) := by
    split
    · exact hrest
    · rw [String.toList_append, List.append_assoc]
      exact .separator (by decide)
  obtain ⟨hright, hlegible⟩ := hright.behind_space hrest
    (hlegible.behind (.symbol op.sign (hcloses.ends op.sign)))
  exact ⟨⟨hleft, hright⟩, hlegible⟩

theorem shows_paren {m : Mark} {inner : Expr} (h : Shows inner.render inner.Sound) :
    Shows (paren m inner).render inner.Sound := by
  intro rest _ hlegible
  have htext : Legible ('(' :: (inner.render.toList ++ ')' :: rest)) := by
    simpa [render] using hlegible
  have hinner := htext.behind (.symbol .lParen trivial)
  obtain ⟨hsound, hclose⟩ := h (.separator (by decide)) hinner
  exact ⟨hsound, hclose.behind (.symbol .rParen trivial)⟩

/-- The operand must not begin with the character that would make the sign `!=`. -/
theorem shows_unary {m : Mark} {op : UnaryOp} {operand : Expr}
    (hequal : ∀ {rest}, Closes rest → (operand.render.toList ++ rest).head? ≠ some '=')
    (h : Shows operand.render operand.Sound) :
    Shows (unary m op operand).render operand.Sound := by
  intro rest hrest hlegible
  have hends : op.sign.Ends (operand.render.toList ++ rest) := by
    cases op with
    | neg => exact trivial
    | not => exact hequal hrest
  rw [render, String.toList_append, op.toList_spelling, List.append_assoc] at hlegible
  exact h hrest (hlegible.behind (.symbol op.sign hends))

theorem shows_member {m : Mark} {receiver : Expr} {name : String} (hname : IsName name)
    (h : Shows receiver.render receiver.Sound) :
    Shows (member m receiver name).render receiver.Sound := by
  intro rest hrest hlegible
  have htext : Legible (receiver.render.toList ++ '.' :: (name.toList ++ rest)) := by
    simpa [render] using hlegible
  obtain ⟨hsound, hpoint⟩ := h (closes_member hname rest) htext
  exact ⟨hsound, (hpoint.behind (.symbol .dot trivial)).behind (.ident hname hrest.word)⟩

theorem shows_call {m : Mark} {callee : Expr} {args : List Expr}
    (hcallee : Shows callee.render callee.Sound) (hargs : ∀ a ∈ args, Shows a.render a.Sound) :
    Shows (call m callee args).render (callee.Sound ∧ ∀ a ∈ args, a.Sound) := by
  intro rest _ hlegible
  have htext : Legible (callee.render.toList ++
      '(' :: ((Text.listing (renderAll args)).toList ++ ')' :: rest)) := by
    simpa [render] using hlegible
  obtain ⟨hsound, hopen⟩ := hcallee (.separator (by decide)) htext
  obtain ⟨hsounds, hlegible⟩ := (sound_enclosed hargs).1 hopen
  exact ⟨⟨hsound, hsounds⟩, hlegible⟩

theorem shows_index {m : Mark} {receiver : Expr} {args : List Expr}
    (hreceiver : Shows receiver.render receiver.Sound)
    (hargs : ∀ a ∈ args, Shows a.render a.Sound) :
    Shows (index m receiver args).render (receiver.Sound ∧ ∀ a ∈ args, a.Sound) := by
  intro rest _ hlegible
  have htext : Legible (receiver.render.toList ++
      '[' :: ((Text.listing (renderAll args)).toList ++ ']' :: rest)) := by
    simpa [render] using hlegible
  obtain ⟨hsound, hopen⟩ := hreceiver (.separator (by decide)) htext
  obtain ⟨hsounds, hlegible⟩ := (sound_enclosed hargs).2 hopen
  exact ⟨⟨hsound, hsounds⟩, hlegible⟩

theorem shows_new {m : Mark} {ty : TypeExpr} {args init : Option (List Expr)}
    (hnamed : ty.Named) (hargs : ∀ a ∈ args.getD [], Shows a.render a.Sound)
    (hinit : ∀ a ∈ init.getD [], Shows a.render a.Sound) :
    Shows (new m ty args init).render (ty.isResolved = true ∧
      ∀ c ∈ (new m ty args init).children, c.Sound) := by
  intro rest hrest hlegible
  have htext : Legible ((Keyword.spelling .new).toList ++ ' ' :: (ty.render.toList ++
      ((argumentsText args).toList ++ ((initializerText init).toList ++ rest)))) := by
    simpa [render_new, Keyword.spelling] using hlegible
  have hcloses := joins_initializer init hrest
  have htype := (htext.behind (.keyword .new (.separator (by decide)))).space
  obtain ⟨hres, hlegible⟩ := TypeExpr.shows hnamed (joins_arguments args hcloses) htype
  obtain ⟨hsounds, hlegible⟩ := shows_arguments hargs hcloses hlegible
  obtain ⟨hsounds', hlegible⟩ := shows_initializer hinit hrest hlegible
  refine ⟨⟨hres, fun c hc => ?_⟩, hlegible⟩
  rcases List.mem_append.mp (by simpa [children] using hc) with hc | hc
  · exact hsounds c hc
  · exact hsounds' c hc

/-! ### Any tree -/

/-- **A well-formed tree whose text is legible can be written so that it is read back.** -/
theorem shows {e : Expr} : e.WellFormed → (∀ t, e.Has t → t.Scanned) →
    Shows e.render e.Sound := by
  induction e using children_induction with
  | step e ih =>
    intro hwf hscanned
    have hhas : ∀ c ∈ e.children, ∀ t, c.Has t → t.Scanned := fun c hc t ht =>
      hscanned t (has_iff.mpr (Or.inr ⟨c, hc, ht⟩))
    have hparts : ∀ c ∈ e.children, Shows c.render c.Sound := fun c hc =>
      ih c hc (hwf.child hc) (hhas c hc)
    have hword : ∀ t ∈ e.words, t.Scanned := fun t ht => hscanned t (has_iff.mpr (Or.inl ht))
    have hwords : (∀ m value, e ≠ .literal m (.double value)) → ∀ t ∈ e.words, t.Writable :=
      writable_of_mem_words hscanned
    cases e with
    | missing m =>
      exact Shows.empty.imp fun _ => sound_of_parts trivial (by simp [words]) (by simp [children])
    | literal m value => exact shows_literal m (hword _ (by simp [words]))
    | ident m name =>
      have hname : IsName name := hword (.ident name) (by simp [words])
      intro rest hrest hlegible
      refine ⟨sound_of_parts trivial (hwords (by simp)) (by simp [children]), ?_⟩
      exact hlegible.behind (.ident hname hrest.word)
    | paren m inner =>
      refine (shows_paren (hparts inner (by simp [children]))).imp fun hsound => ?_
      exact sound_of_parts trivial (hwords (by simp)) (by simpa [children] using hsound)
    | unary m op operand =>
      have hequal : ∀ {rest}, Closes rest → (operand.render.toList ++ rest).head? ≠ some '=' :=
        head?_render_ne (hwf.child (by simp [children])) (hhas operand (by simp [children]))
          hwf.formed
      refine (shows_unary hequal (hparts operand (by simp [children]))).imp fun hsound => ?_
      exact sound_of_parts trivial (hwords (by simp)) (by simpa [children] using hsound)
    | binary m op left right =>
      refine (shows_binary (hparts left (by simp [children]))
        (hparts right (by simp [children]))).imp fun hsound => ?_
      exact sound_of_parts trivial (hwords (by simp)) (by simpa [children] using hsound)
    | member m receiver name =>
      have hname : IsName name := hword (.ident name) (by simp [words])
      refine (shows_member hname (hparts receiver (by simp [children]))).imp fun hsound => ?_
      exact sound_of_parts trivial (hwords (by simp)) (by simpa [children] using hsound)
    | call m callee args =>
      refine (shows_call (hparts callee (by simp [children]))
        fun a ha => hparts a (by simp [children, ha])).imp fun hsound => ?_
      exact sound_of_parts trivial (hwords (by simp)) (by simpa [children] using hsound)
    | index m receiver args =>
      refine (shows_index (hparts receiver (by simp [children]))
        fun a ha => hparts a (by simp [children, ha])).imp fun hsound => ?_
      exact sound_of_parts trivial (hwords (by simp)) (by simpa [children] using hsound)
    | new m ty args init =>
      have hnamed : ty.Named := fun x hx => hword (.ident x) (by simp [words, hx])
      refine (shows_new hnamed (fun a ha => hparts a (by simp [children, ha]))
        fun a ha => hparts a (by simp [children, ha])).imp fun hsound => ?_
      exact sound_of_parts hsound.1 (hwords (by simp)) hsound.2

end Expr

/-! ### Lines

A line ends every piece on it, so what follows a line need not close anything, and lines
are put together without a condition.
-/

theorem ShowsLines.empty : ShowsLines "" True := fun _ h => ⟨trivial, h⟩

theorem ShowsLines.imp {text : String} {P Q : Prop} (h : ShowsLines text P) (hPQ : P → Q) :
    ShowsLines text Q :=
  fun _ hlegible => ⟨hPQ (h hlegible).1, (h hlegible).2⟩

theorem ShowsLines.append {a b : String} {P Q : Prop} (ha : ShowsLines a P)
    (hb : ShowsLines b Q) : ShowsLines (a ++ b) (P ∧ Q) := by
  intro rest hlegible
  rw [String.toList_append, List.append_assoc] at hlegible
  obtain ⟨hP, hlegible⟩ := ha hlegible
  obtain ⟨hQ, hlegible⟩ := hb hlegible
  exact ⟨⟨hP, hQ⟩, hlegible⟩

theorem Legible.spaces {n : Nat} {rest : List Char} (h : Legible (List.replicate n ' ' ++ rest)) :
    Legible rest := by
  induction n with
  | zero => exact h
  | succ n ih => exact ih h.space

/-- A line shows what its text shows, however deep it stands. -/
theorem ShowsLines.line {text : String} {P : Prop} (h : Shows text P) (depth : Nat) :
    ShowsLines (Stmt.line depth text) P := by
  intro rest hlegible
  have hline : Legible (List.replicate (4 * depth) ' ' ++ (text.toList ++ '\n' :: rest)) := by
    simpa [Stmt.line] using hlegible
  obtain ⟨hP, hend⟩ := h (.separator (by decide)) hline.spaces
  exact ⟨hP, (legible_white_iff (by decide)).mp hend⟩

namespace Stmt

/-- What follows the head of a declaration is legible. -/
theorem legible_behind_head {ty : Option TypeExpr} {name : String}
    (hheads : ∀ t ∈ declaredTokens ty ++ [.ident name], t.Scanned) {rest : List Char}
    (hrest : Closes rest)
    (h : Legible ((typeOrVar ty).toList ++ ' ' :: (name.toList ++ rest))) : Legible rest := by
  have hname : IsName name := hheads (.ident name) (by simp)
  have hspace : Legible (' ' :: (name.toList ++ rest)) := by
    cases ty with
    | none => exact h.behind (.keyword .var (.separator (by decide)))
    | some ty =>
      have hnamed : ty.Named := fun x hx => hheads (.ident x) (List.mem_append_left _ hx)
      exact (TypeExpr.shows hnamed (.separator (by decide)) h).2
  exact hspace.space.behind (.ident hname hrest.word)

/-- Every tree in the statement can be written so that it is read back. -/
def Sound (st : Stmt) : Prop := ∀ e ∈ st.roots, e.Sound

/-- The lines of the statement show that it is sound. -/
def Shown (st : Stmt) : Prop := ∀ depth, ShowsLines (st.renderAt depth) st.Sound

theorem shown_declare {ty : Option TypeExpr} {name : String} {init : Option Expr} {line : Nat}
    (hheads : ∀ t ∈ declaredTokens ty ++ [.ident name], t.Scanned)
    (hinit : ∀ e ∈ init, Shows e.render e.Sound) : (declare ty name init line).Shown := by
  intro depth
  cases init with
  | none =>
    rw [renderAt]
    refine .line (fun rest hrest hlegible => ⟨by simp [Sound, roots], ?_⟩) depth
    have htext : Legible ((typeOrVar ty).toList ++ ' ' :: (name.toList ++ ';' :: rest)) := by
      simpa using hlegible
    have hsemi := legible_behind_head hheads (.separator (by decide)) htext
    exact hsemi.behind (.symbol .semi trivial)
  | some e =>
    rw [renderAt]
    refine .line (fun rest hrest hlegible => ?_) depth
    have htext : Legible ((typeOrVar ty).toList ++ ' ' :: (name.toList ++
        ' ' :: '=' :: ' ' :: (e.render.toList ++ ';' :: rest))) := by
      simpa using hlegible
    have hassign := (legible_behind_head hheads (.separator (by decide)) htext).space
    have hvalue := (hassign.behind (.symbol .assign (by simp [Symbol.Ends]))).space
    obtain ⟨hsound, hsemi⟩ := hinit e rfl (.separator (by decide)) hvalue
    exact ⟨by simpa [Sound, roots] using hsound, hsemi.behind (.symbol .semi trivial)⟩

theorem shown_assign {target value : Expr} (htarget : Shows target.render target.Sound)
    (hvalue : Shows value.render value.Sound) : (assign target value).Shown := by
  intro depth
  rw [renderAt]
  refine .line (fun rest hrest hlegible => ?_) depth
  have htext : Legible (target.render.toList ++
      ' ' :: '=' :: ' ' :: (value.render.toList ++ ';' :: rest)) := by
    simpa using hlegible
  obtain ⟨hleft, hassign⟩ := htarget (.separator (by decide)) htext
  have hright := (hassign.space.behind (.symbol .assign (by simp [Symbol.Ends]))).space
  obtain ⟨hright, hsemi⟩ := hvalue (.separator (by decide)) hright
  exact ⟨by simpa [Sound, roots] using ⟨hleft, hright⟩, hsemi.behind (.symbol .semi trivial)⟩

theorem shown_expr {value : Expr} (hvalue : Shows value.render value.Sound) :
    (expr value).Shown := by
  intro depth
  rw [renderAt]
  refine .line (fun rest hrest hlegible => ?_) depth
  have htext : Legible (value.render.toList ++ ';' :: rest) := by
    simpa using hlegible
  obtain ⟨hsound, hsemi⟩ := hvalue (.separator (by decide)) htext
  exact ⟨by simpa [Sound, roots] using hsound, hsemi.behind (.symbol .semi trivial)⟩

theorem showsLines_all {stmts : List Stmt} (h : ∀ p ∈ stmts, p.Shown) (depth : Nat) :
    ShowsLines (renderAllAt depth stmts) (∀ e ∈ rootsOfAll stmts, e.Sound) := by
  induction stmts with
  | nil => exact ShowsLines.empty.imp (by simp [rootsOfAll])
  | cons first others ih =>
    have hothers := ih fun p hp => h p (by simp [hp])
    refine ((h first (by simp) depth).append hothers).imp ?_
    rintro ⟨hfirst, hothers⟩ e he
    rw [rootsOfAll] at he
    rcases List.mem_append.mp he with he | he
    · exact hfirst e he
    · exact hothers e he

/-- A line with nothing but one symbol. -/
theorem shows_symbol (sign : Symbol) {text : String} (htext : text.toList = sign.spelling) :
    Shows text True := by
  intro rest hrest hlegible
  rw [htext] at hlegible
  exact ⟨trivial, hlegible.behind (.symbol sign (hrest.ends sign))⟩

theorem shown_block {stmts : List Stmt} (h : ∀ p ∈ stmts, p.Shown) : (block stmts).Shown := by
  intro depth
  have hopen : Shows "\x7b" True := shows_symbol .lBrace rfl
  have hclose : Shows "\x7d" True := shows_symbol .rBrace rfl
  rw [renderAt]
  have hall := ((ShowsLines.line hopen depth).append (showsLines_all h (depth + 1))).append
    (.line hclose depth)
  exact hall.imp fun hsound => hsound.1.2

theorem shown_branch {cond : Expr} {thenBranch : Stmt} {elseBranch : Option Stmt}
    (hcond : Shows cond.render cond.Sound) (hthen : thenBranch.Shown)
    (helse : ∀ other ∈ elseBranch, other.Shown) : (branch cond thenBranch elseBranch).Shown := by
  intro depth
  have hif : Shows ("if (" ++ cond.render ++ ")") cond.Sound := by
    intro rest _ hlegible
    have htext : Legible ((Keyword.spelling .if_).toList ++
        ' ' :: '(' :: (cond.render.toList ++ ')' :: rest)) := by
      simpa [Keyword.spelling] using hlegible
    have hopen := (htext.behind (.keyword .if_ (.separator (by decide)))).space
    have hinner := hopen.behind (.symbol .lParen trivial)
    obtain ⟨hsound, hclose⟩ := hcond (.separator (by decide)) hinner
    exact ⟨hsound, hclose.behind (.symbol .rParen trivial)⟩
  have hhead := (ShowsLines.line hif depth).append (hthen (bodyDepth depth thenBranch))
  cases elseBranch with
  | none =>
    rw [renderAt]
    refine (hhead.append .empty).imp ?_
    rintro ⟨⟨hcond, hthen⟩, -⟩ e he
    rcases List.mem_cons.mp (by simpa [roots_branch] using he) with rfl | he
    · exact hcond
    · exact hthen e he
  | some other =>
    have hword : Shows "else" True := fun rest hrest hlegible =>
      ⟨trivial, hlegible.behind (.keyword .else_ hrest)⟩
    have hother := (ShowsLines.line hword depth).append (helse other rfl (bodyDepth depth other))
    rw [renderAt]
    refine (hhead.append hother).imp ?_
    rintro ⟨⟨hcond, hthen⟩, -, hother⟩ e he
    rcases (by simpa [roots_branch] using he : e = cond ∨ e ∈ thenBranch.roots ∨ e ∈ other.roots)
      with rfl | he | he
    · exact hcond
    · exact hthen e he
    · exact hother e he

theorem shown_foreach {ty : Option TypeExpr} {name : String} {iter : Expr} {body : Stmt}
    (hheads : ∀ t ∈ declaredTokens ty ++ [.ident name], t.Scanned)
    (hiter : Shows iter.render iter.Sound) (hbody : body.Shown) :
    (foreach ty name iter body).Shown := by
  intro depth
  have hhead : Shows ("foreach (" ++ typeOrVar ty ++ " " ++ name ++ " in " ++ iter.render ++ ")")
      iter.Sound := by
    intro rest _ hlegible
    have htext : Legible ((Keyword.spelling .foreach).toList ++ ' ' :: '(' ::
        ((typeOrVar ty).toList ++ ' ' :: (name.toList ++ ' ' :: ((Keyword.spelling .in_).toList ++
          ' ' :: (iter.render.toList ++ ')' :: rest))))) := by
      simpa [Keyword.spelling] using hlegible
    have hopen := (htext.behind (.keyword .foreach (.separator (by decide)))).space
    have hvariable := hopen.behind (.symbol .lParen trivial)
    have hin := (legible_behind_head hheads (.separator (by decide)) hvariable).space
    have hinner := (hin.behind (.keyword .in_ (.separator (by decide)))).space
    obtain ⟨hsound, hclose⟩ := hiter (.separator (by decide)) hinner
    exact ⟨hsound, hclose.behind (.symbol .rParen trivial)⟩
  rw [renderAt]
  refine ((ShowsLines.line hhead depth).append (hbody (bodyDepth depth body))).imp ?_
  rintro ⟨hiter, hbody⟩ e he
  rcases List.mem_cons.mp (by simpa [roots] using he) with rfl | he
  · exact hiter
  · exact hbody e he

/-- **A well-formed statement whose lines are legible can be written so that it is read
back.** -/
theorem shown {st : Stmt} : st.WellFormed → (∀ e ∈ st.roots, ∀ t, e.Has t → t.Scanned) →
    (∀ t ∈ st.heads, t.Scanned) → st.Shown := by
  induction st using parts_induction with
  | step st ih =>
    intro hwf hscanned hheads
    have hparts : ∀ p ∈ st.parts, p.Shown := fun p hp =>
      ih p hp (hwf.part hp) (fun e he => hscanned e (mem_roots_of_mem_parts hp he))
        fun t ht => hheads t (mem_heads_of_mem_parts hp ht)
    have hroots : ∀ e ∈ st.roots, e.WellFormed → Shows e.render e.Sound := fun e he hwfe =>
      Expr.shows hwfe (hscanned e he)
    cases st with
    | declare ty name init line =>
      refine shown_declare hheads fun e he => ?_
      exact hroots e (by simpa [roots] using he) (hwf.2.2 e he)
    | assign target value =>
      exact shown_assign (hroots target (by simp [roots]) hwf.1)
        (hroots value (by simp [roots]) hwf.2.1)
    | expr value => exact shown_expr (hroots value (by simp [roots]) hwf.1)
    | block stmts => exact shown_block fun p hp => hparts p (by simpa [parts] using hp)
    | branch cond thenBranch elseBranch =>
      refine shown_branch (hroots cond (by simp [roots_branch]) hwf.1)
        (hparts thenBranch (by simp [parts])) fun other hother => ?_
      obtain rfl : elseBranch = some other := hother
      exact hparts other (by simp [parts])
    | foreach ty name iter body =>
      refine shown_foreach (fun t ht => hheads t ?_) (hroots iter (by simp [roots]) hwf.2.1)
        (hparts body (by simp [parts]))
      rw [heads]
      simp only [List.mem_append, List.mem_cons, List.not_mem_nil, or_false] at ht ⊢
      rcases ht with ht | ht
      · exact Or.inl ht
      · exact Or.inr (Or.inl ht)

end Stmt

/-! ### Programs

A text that was read is legible, since no program has a point in front of anything but a
name.  So the text of a program, if it is read at all, shows that the program can be
written, and the round trip then gives the program back.
-/

namespace Program

/-- A text that is read as a program is legible. -/
theorem legible_of_ofText {source : String} {p : Program} (h : ofText source = .ok p) :
    Legible source.toList := by
  obtain ⟨found, t, hfound, hparse⟩ := ofText_eq_ok_iff.mp h
  obtain ⟨us, hus, hkinds⟩ :=
    Stmt.spansAll_spells (Parser.program_spans hparse).1 fun _ _ _ _ => Stmt.Spans.spells
  have hend : t.kinds = [] := by
    rw [TokenStream.kinds, unread_eq_nil_of_read hparse hfound.lexes.ne_eof, List.map_nil]
  rw [hend, List.append_nil] at hkinds
  obtain rfl : found.map Located.token = us := hkinds
  exact ⟨_, hfound.lexes, (hus.pointsNamed fun _ _ _ => Stmt.Spells.pointsNamed).chain⟩

/-- **A program whose text is read can be written.**  Its types are known in every part and
its numbers are finite. -/
theorem sound_of_ofText_render {p q : Program} (hwf : Stmt.AllWellFormed p.stmts)
    (hscanned : ∀ e ∈ p.roots, ∀ t, e.Has t → t.Scanned)
    (hheads : ∀ t ∈ Stmt.headsOfAll p.stmts, t.Scanned) (h : ofText p.render = .ok q) :
    ∀ e ∈ p.roots, e.Sound := by
  have hshown : ∀ st ∈ p.stmts, st.Shown := by
    intro st hst
    refine Stmt.shown (Stmt.allWellFormed_iff.mp hwf st hst) (fun e he => hscanned e ?_)
      fun t ht => hheads t ?_
    · rw [roots, Stmt.rootsOfAll_eq, List.mem_flatMap]
      exact ⟨st, hst, he⟩
    · rw [Stmt.headsOfAll_eq, List.mem_flatMap]
      exact ⟨st, hst, ht⟩
  have hlegible : Legible ((Stmt.renderAllAt 0 p.stmts).toList ++ []) := by
    rw [List.append_nil]
    exact legible_of_ofText h
  exact (Stmt.showsLines_all hshown 0 hlegible).1

/-- **What the text of a program is read as is the program, trimmed.** -/
theorem bare_of_ofText_render {p q : Program} (hwf : Stmt.AllWellFormed p.stmts)
    (hscanned : ∀ e ∈ p.roots, ∀ t, e.Has t → t.Scanned)
    (hheads : ∀ t ∈ Stmt.headsOfAll p.stmts, t.Scanned) (h : ofText p.render = .ok q) :
    q.stmts.map Stmt.bare = p.stmts.map fun st => st.trimmed.bare := by
  have hsound := sound_of_ofText_render hwf hscanned hheads h
  obtain ⟨q', hq', hbare⟩ := exists_ofText_render hwf (fun e he => (hsound e he).1)
    (fun e he => (hsound e he).2) hheads
  obtain rfl : q' = q := Except.ok.inj (hq'.symm.trans h)
  exact hbare

end Program

end ListSugar
