/-
The text of a tree holds the tokens of the tree.

A text is `Lexed` as tokens when, in front of anything that closes its last piece, it
puts these tokens in front of the others.  The texts of types and expressions are, by
induction on the tree: every part is followed by a bracket, a comma, a space or a
point, and each of them closes the piece before it.  What is spelled is the trimmed
tree, since the text of a missing last element is nothing but the comma before it.
-/
import ListSugar.Expr.Printer
import ListSugar.Proofs.Grammar.Spelled
import ListSugar.Proofs.Grammar.Words
import ListSugar.Proofs.Layout.Pieces

namespace ListSugar

open Scanner

/-- The text puts the tokens in front of those of any text that closes its last piece. -/
def Lexed (text : String) (us : List Token) : Prop :=
  ∀ ⦃rest : List Char⦄ ⦃ts : List Token⦄, Closes rest → Lexes rest ts →
    Lexes (text.toList ++ rest) (us ++ ts)

theorem Lexed.empty : Lexed "" [] := fun _ _ _ h => h

/-- Nothing is read from no text. -/
theorem Lexed.eq_nil {us : List Token} (h : Lexed "" us) : us = [] := by
  have hnil : Lexes [] (us ++ []) := h .nil .nil
  rw [List.append_nil] at hnil
  cases hnil
  rfl

/-- A token that can be written so that it is read back. -/
def Token.Writable (t : Token) : Prop :=
  t.Scanned ∧ ∀ value, t = .double value → value.isFinite = true

/-- A text that begins with `=` begins with one of two symbols. -/
theorem piece_equal (rest : List Char) :
    (piece '=' rest).value = .ok (.token (.symbol .eq)) ∨
      (piece '=' rest).value = .ok (.token (.symbol .assign)) := by
  have hpiece : piece '=' rest = (Scanner.symbol '=' rest).map .token := by
    unfold piece
    rw [if_neg (by decide), if_neg (by simp), if_neg (by simp), if_neg (by decide),
      if_neg (by decide), if_neg (by decide), if_neg (by decide)]
  rw [hpiece]
  by_cases hnext : rest.head? = some '='
  · obtain ⟨tail, rfl⟩ : ∃ tail, rest = '=' :: tail := by
      cases rest with
      | nil => cases hnext
      | cons d tail => exact ⟨tail, by rw [show d = '=' by simpa using hnext]⟩
    exact Or.inl rfl
  · refine Or.inr ?_
    have hends : Symbol.Ends .assign rest := hnext
    have hvalue : (Scanner.symbol '=' ([] ++ rest)).value = .ok (.symbol .assign) :=
      (symbol_spelling rfl hends).1
    rw [List.nil_append] at hvalue
    rw [map_value_eq_ok_iff]
    exact ⟨_, hvalue, rfl⟩

/-- A text whose first token is no `=` or `==` does not begin with that character. -/
theorem Lexes.head?_ne_equal {cs : List Char} {t : Token} {ts : List Token}
    (h : Lexes cs (t :: ts)) (heq : t ≠ .symbol .eq) (hassign : t ≠ .symbol .assign) :
    cs.head? ≠ some '=' := by
  intro hhead
  cases h with
  | gap hgap hrest =>
    cases hhead
    rcases piece_equal _ with hp | hp <;> rw [hp] at hgap <;> cases hgap
  | token htoken hrest =>
    cases hhead
    rcases piece_equal _ with hp | hp <;> rw [hp] at htoken <;> cases htoken
    · exact heq rfl
    · exact hassign rfl

/-! ### Types -/

namespace TypeExpr

/-- Every name in the type is a name that can be read. -/
def Named (ty : TypeExpr) : Prop := ∀ name, Token.ident name ∈ ty.tokens → IsName name

theorem ident_mem_tokensAfterComma {x : String} {args : List TypeExpr} :
    .ident x ∈ tokensAfterComma args ↔ ∃ a ∈ args, .ident x ∈ a.tokens := by
  induction args with
  | nil => simp [tokensAfterComma]
  | cons first others ih => simp [tokensAfterComma, ih]

/-- The names in a type are its own and those of its arguments. -/
theorem named_iff {name : String} {args : List TypeExpr} :
    (named name args).Named ↔ IsName name ∧ ∀ a ∈ args, a.Named := by
  have hmem : ∀ x, .ident x ∈ (named name args).tokens ↔
      x = name ∨ ∃ a ∈ args, .ident x ∈ a.tokens := by
    intro x
    cases args with
    | nil => simp [tokens]
    | cons first others => simp [tokens, ident_mem_tokensAfterComma]
  constructor
  · intro h
    refine ⟨h name ((hmem name).mpr (Or.inl rfl)), fun a ha x hx => ?_⟩
    exact h x ((hmem x).mpr (Or.inr ⟨a, ha, hx⟩))
  · rintro ⟨hname, hargs⟩ x hx
    rcases (hmem x).mp hx with rfl | ⟨a, ha, hx⟩
    · exact hname
    · exact hargs a ha x hx

theorem lexed_listing {args : List TypeExpr} : ∀ {first : TypeExpr},
    (∀ a ∈ first :: args, Lexed a.render a.tokens) →
    Lexed (Text.listing (first.render :: renderAll args))
      (first.tokens ++ tokensAfterComma args) := by
  induction args with
  | nil =>
    intro first h
    rw [tokensAfterComma, List.append_nil]
    exact h first (by simp)
  | cons second others ih =>
    intro first h rest ts hrest hts
    have htext : (Text.listing (first.render :: renderAll (second :: others))).toList
        = first.render.toList ++ (',' :: ' ' ::
          (Text.listing (second.render :: renderAll others)).toList) := by
      simp [Text.listing, renderAll]
    rw [htext, tokensAfterComma, List.append_assoc, List.append_assoc]
    refine h first (by simp) (.separator (by decide)) ?_
    refine Lexes.symbol .comma trivial (Lexes.space ?_)
    exact ih (fun a ha => h a (by simp [ha])) hrest hts

/-- **The text of a resolved type holds its tokens.** -/
theorem lexed {ty : TypeExpr} : ty.isResolved = true → ty.Named → Lexed ty.render ty.tokens := by
  induction ty using args_induction with
  | named name args ih =>
    intro hres hnamed
    cases args with
    | nil =>
      intro rest ts hrest hts
      have hname := hnamed name (by simp [tokens])
      rw [render, tokens]
      exact hts.ident hname hrest
    | cons first others =>
      have hname := hnamed name (by simp [tokens])
      have hargs : ∀ a ∈ first :: others, Lexed a.render a.tokens := fun a ha =>
        ih a ha (allResolved_iff.mp hres a ha) ((named_iff.mp hnamed).2 a ha)
      intro rest ts hrest hts
      have htext : (named name (first :: others)).render.toList ++ rest
          = name.toList ++ ('<' :: ((Text.listing (first.render :: renderAll others)).toList
            ++ ('>' :: rest))) := by
        simp [render]
      have hlist := lexed_listing hargs (.separator (by decide))
        (Lexes.symbol .gt (hrest.ends .gt) hts)
      have hfirst : ((Text.listing (first.render :: renderAll others)).toList
          ++ ('>' :: rest)).head? ≠ some '=' := by
        obtain ⟨x, more, hx⟩ := tokens_eq_ident_cons (allResolved_iff.mp hres first (by simp))
        rw [hx] at hlist
        exact hlist.head?_ne_equal (by simp) (by simp)
      rw [htext]
      refine Lexes.ident hname (.separator (by decide)) ?_
      simpa [Symbol.spelling] using Lexes.symbol .lt hfirst hlist
  | array element ih =>
    intro hres hnamed rest ts hrest hts
    have hinner := ih hres fun x hx => hnamed x (by simp [tokens, hx])
    have htext : (TypeExpr.array element).render.toList ++ rest
        = element.render.toList ++ ('[' :: ']' :: rest) := by
      simp [render]
    rw [htext, tokens, List.append_assoc]
    refine hinner (.separator (by decide)) ?_
    exact Lexes.symbol .lBracket trivial (Lexes.symbol .rBracket trivial hts)
  | unresolved => intro hres; cases hres

end TypeExpr

/-! ### Literals and operators

A missing tree has no text, and the printer then leaves out the space beside an operator.
So it has to be known when a text is empty, and that no text begins with `=`, which could
join the operator in front of it.
-/

theorem Literal.starts {value : Literal} (h : value.token.Writable) {rest : List Char}
    (hrest : Closes rest) : Starts (value.render.toList ++ rest) value.token rest := by
  cases value with
  | int value => exact .int h.1 hrest
  | double value => exact .double (h.2 value rfl) h.1 hrest
  | str value => exact .str value rest
  | char value => exact .char value rest
  | bool value =>
    cases value with
    | true => exact .word (.of_chars rfl (by decide) (by decide)) hrest.word
    | false => exact .word (.of_chars rfl (by decide) (by decide)) hrest.word
  | null => exact .word (.of_chars rfl (by decide) (by decide)) hrest.word

theorem Literal.lexed {value : Literal} (h : value.token.Writable) :
    Lexed value.render [value.token] :=
  fun _ _ hrest hts => (Literal.starts h hrest).lexes hts

theorem UnaryOp.toList_spelling (op : UnaryOp) : op.spelling.toList = op.sign.spelling := by
  cases op <;> rfl

theorem BinaryOp.toList_spelling (op : BinaryOp) : op.spelling.toList = op.sign.spelling := by
  cases op <;> rfl

namespace Expr

/-- Every word of the tree can be written so that it is read back. -/
def Writable (e : Expr) : Prop := ∀ t, e.Has t → t.Writable

theorem Writable.child {e c : Expr} (h : e.Writable) (hc : c ∈ e.children) : c.Writable :=
  fun t ht => h t (has_iff.mpr (Or.inr ⟨c, hc, ht⟩))

theorem Writable.word {e : Expr} (h : e.Writable) {t : Token} (ht : t ∈ e.words) : t.Writable :=
  h t (has_iff.mpr (Or.inl ht))

/-- The text of the tree holds the tokens of the trimmed tree. -/
def Written (e : Expr) : Prop := ∃ us, e.trimmed.Spells us ∧ Lexed e.render us

/-- A written tree has no text just when it is missing. -/
theorem Written.render_eq_empty_iff {e : Expr} (h : e.Written) :
    e.render = "" ↔ e.isMissing = true := by
  constructor
  · intro hempty
    obtain ⟨us, hus, hlexed⟩ := h
    rw [hempty] at hlexed
    obtain rfl := hlexed.eq_nil
    rw [← isMissing_trimmed]
    exact isMissing_of_spells_nil hus
  · intro hmissing
    cases e with
    | missing m => rfl
    | _ => cases hmissing

/-- What is written in front of a text does not begin with `=`. -/
theorem head?_ne_equal {e : Expr} (hwf : e.WellFormed) {us : List Token}
    (hus : e.trimmed.Spells us) (hlexed : Lexed e.render us) {rest : List Char} {ts : List Token}
    (hrest : Closes rest) (hts : Lexes rest ts) :
    (e.render.toList ++ rest).head? ≠ some '=' := by
  cases us with
  | nil =>
    have hempty : e.render = "" := by
      refine (Written.render_eq_empty_iff ⟨[], hus, hlexed⟩).mpr ?_
      rw [← isMissing_trimmed]
      exact isMissing_of_spells_nil hus
    rw [hempty]
    exact hrest.equal
  | cons first us =>
    have hopens := opens_of_spells hwf.trimmed hus
    refine (hlexed hrest hts).head?_ne_equal ?_ ?_
    · rintro rfl
      cases hopens
    · rintro rfl
      cases hopens

/-! ### Lists of trees

Commas stand between the parts whether or not a part has a text of its own.  A missing
part therefore leaves a comma with nothing beside it, which is read as a missing part
again, except at the end of an initializer, where such a comma may stand.
-/

theorem lexed_listing {es : List Expr} : (∀ e ∈ es, e.Written) →
    ∃ us, SpellsAll (trimmedAll es) us ∧ Lexed (Text.listing (renderAll es)) us := by
  induction es with
  | nil =>
    intro _
    exact ⟨[], rfl, .empty⟩
  | cons first others ih =>
    intro h
    obtain ⟨us, hus, hlexed⟩ := h first (by simp)
    obtain ⟨vs, hvs, hlexed'⟩ := ih fun e he => h e (by simp [he])
    cases others with
    | nil =>
      refine ⟨us, ⟨us, [], hus, rfl, by simp⟩, ?_⟩
      simpa [renderAll, Text.listing] using hlexed
    | cons second more =>
      refine ⟨us ++ .symbol .comma :: vs, ⟨us, _, hus, ?_, rfl⟩, ?_⟩
      · obtain ⟨as, bs, has, hbs, rfl⟩ := hvs
        exact ⟨as, bs, has, hbs, rfl⟩
      · intro rest ts hrest hts
        have htext : (Text.listing (renderAll (first :: second :: more))).toList ++ rest
            = first.render.toList ++ (',' :: ' ' ::
              ((Text.listing (renderAll (second :: more))).toList ++ rest)) := by
          simp [Text.listing, renderAll]
        rw [htext, List.append_assoc]
        refine hlexed (.separator (by decide)) ?_
        exact Lexes.symbol .comma trivial (Lexes.space (hlexed' hrest hts))

/-- A list of trees between brackets. -/
theorem lexes_enclosed {es : List Expr} (h : ∀ e ∈ es, e.Written) :
    ∃ us, SpellsAll (trimmedAll es) us ∧ ∀ {rest : List Char} {ts : List Token}, Lexes rest ts →
      Lexes ('(' :: ((Text.listing (renderAll es)).toList ++ ')' :: rest))
        (.symbol .lParen :: (us ++ .symbol .rParen :: ts)) ∧
      Lexes ('[' :: ((Text.listing (renderAll es)).toList ++ ']' :: rest))
        (.symbol .lBracket :: (us ++ .symbol .rBracket :: ts)) := by
  obtain ⟨us, hus, hlexed⟩ := lexed_listing h
  refine ⟨us, hus, fun {rest ts} hts => ⟨?_, ?_⟩⟩
  · have hinner := hlexed (.separator (by decide)) (Lexes.symbol .rParen trivial hts)
    exact Lexes.symbol .lParen trivial hinner
  · have hinner := hlexed (.separator (by decide)) (Lexes.symbol .rBracket trivial hts)
    exact Lexes.symbol .lBracket trivial hinner

/-- The tokens of trees of which the last is missing end with a comma. -/
theorem spellsRest_concat {last : Expr} (hlast : last.isMissing = true) : ∀ {es : List Expr}
    {vs : List Token}, SpellsRest (es ++ [last]) vs →
    ∃ us, vs = us ++ [.symbol .comma] ∧ SpellsRest es us := by
  intro es
  induction es with
  | nil =>
    intro vs h
    obtain ⟨us, ws, hus, hws, rfl⟩ := h
    cases last with
    | missing m =>
      obtain rfl : us = [] := hus
      obtain rfl : ws = [] := hws
      exact ⟨[], rfl, rfl⟩
    | _ => cases hlast
  | cons e es ih =>
    intro vs h
    obtain ⟨us, ws, hus, hws, rfl⟩ := h
    obtain ⟨ws, rfl, hrest⟩ := ih hws
    exact ⟨.symbol .comma :: (us ++ ws), by simp, us, ws, hus, hrest, rfl⟩

/-- The elements of an initializer between its braces: what the text of a missing last
element leaves is the comma that may stand there. -/
theorem spellsInitializer_of_spellsAll {es : List Expr} {us : List Token}
    (h : SpellsAll es us) :
    SpellsInitializer (some (dropLastMissing es))
      (.symbol .lBrace :: (us ++ [.symbol .rBrace])) := by
  unfold dropLastMissing
  cases hlast : es.getLast? with
  | none =>
    obtain rfl : es = [] := List.getLast?_eq_none_iff.mp hlast
    obtain rfl : us = [] := h
    exact ⟨[], rfl, Or.inl ⟨rfl, by simp⟩⟩
  | some last =>
    by_cases hmissing : last.isMissing = true
    · obtain ⟨init, rfl⟩ := List.getLast?_eq_some_iff.mp hlast
      simp only [hmissing, if_true, List.dropLast_concat]
      cases init with
      | nil =>
        obtain ⟨vs, ws, hvs, hws, rfl⟩ := h
        cases last with
        | missing m =>
          obtain rfl : vs = [] := hvs
          obtain rfl : ws = [] := hws
          exact ⟨[], rfl, Or.inl ⟨rfl, by simp⟩⟩
        | _ => cases hmissing
      | cons e init =>
        obtain ⟨vs, ws, hvs, hws, rfl⟩ := h
        obtain ⟨ws, rfl, hrest⟩ := spellsRest_concat hmissing hws
        exact ⟨vs ++ ws, ⟨vs, ws, hvs, hrest, rfl⟩, Or.inr ⟨by simp, by simp⟩⟩
    · simp only [hmissing]
      refine ⟨us, h, Or.inl ⟨rfl, ?_⟩⟩
      intro found hfound
      rw [if_neg (by simp), hlast] at hfound
      cases hfound
      simpa using hmissing

/-- The text of the arguments of a construction. -/
def argumentsText : Option (List Expr) → String
  | none => ""
  | some es => "(" ++ Text.listing (renderAll es) ++ ")"

/-- The text of the initializer of a construction. -/
def initializerText : Option (List Expr) → String
  | none => ""
  | some es => renderInitializer (renderAll es)

theorem render_new (m : Mark) (ty : TypeExpr) (args init : Option (List Expr)) :
    (new m ty args init).render
      = "new " ++ ty.render ++ argumentsText args ++ initializerText init := by
  cases args <;> cases init <;> simp [render, argumentsText, initializerText]

/-- The text closes what stands before it, if what follows it does. -/
def Joins (text : String) : Prop := ∀ ⦃rest⦄, Closes rest → Closes (text.toList ++ rest)

theorem joins_arguments (args : Option (List Expr)) : Joins (argumentsText args) := by
  intro rest hrest
  cases args with
  | none => exact hrest
  | some es =>
    rw [argumentsText, String.toList_append, String.toList_append, List.append_assoc,
      List.append_assoc]
    exact .separator (by decide)

theorem lexed_arguments {args : Option (List Expr)} : (∀ e ∈ args.getD [], e.Written) →
    ∃ us, SpellsArguments (trimmedPart args) us ∧ Lexed (argumentsText args) us := by
  intro h
  cases args with
  | none => exact ⟨[], rfl, .empty⟩
  | some es =>
    obtain ⟨us, hus, hlexes⟩ := lexes_enclosed h
    refine ⟨_, ⟨us, hus, rfl⟩, ?_⟩
    intro rest ts _ hts
    simpa [argumentsText] using (hlexes hts).1

theorem joins_initializer (init : Option (List Expr)) : Joins (initializerText init) := by
  intro rest hrest
  cases init with
  | none => exact hrest
  | some es =>
    cases es with
    | nil => exact .separator (by decide)
    | cons e es =>
      rw [initializerText, renderAll, renderInitializer.eq_2 _ (by simp), String.toList_append,
        String.toList_append, List.append_assoc, List.append_assoc]
      exact .separator (by decide)

theorem lexed_initializer {init : Option (List Expr)} : (∀ e ∈ init.getD [], e.Written) →
    ∃ us, SpellsInitializer ((trimmedPart init).map dropLastMissing) us ∧
      Lexed (initializerText init) us := by
  intro h
  cases init with
  | none => exact ⟨[], rfl, .empty⟩
  | some es =>
    obtain ⟨us, hus, hlexed⟩ := lexed_listing h
    refine ⟨_, spellsInitializer_of_spellsAll hus, ?_⟩
    intro rest ts _ hts
    have hclose := Lexes.symbol .rBrace trivial hts
    cases es with
    | nil =>
      obtain rfl : us = [] := hus
      have hopen := Lexes.symbol .lBrace trivial hclose.space
      simpa [initializerText, renderInitializer, renderAll, Symbol.spelling] using hopen.space
    | cons e es =>
      have hinner := hlexed (.separator (by decide)) hclose.space
      have hopen := Lexes.symbol .lBrace trivial hinner.space
      simpa [initializerText, renderInitializer, renderAll, Symbol.spelling] using hopen.space

/-! ### Any tree

What the printer puts behind a part, be it a space, a bracket, a comma or a point, closes
the last piece of the part.  The cases differ in what that is, and a point asks for more:
no digit may follow it.
-/

/-- What follows an operator closes it, and holds the right operand. -/
theorem lexed_right {right : Expr} {vs : List Token} (hlexed : Lexed right.render vs)
    {rest : List Char} {ts : List Token} (hrest : Closes rest) (hts : Lexes rest ts) :
    Closes ((if right.render = "" then "" else " " ++ right.render).toList ++ rest) ∧
      Lexes ((if right.render = "" then "" else " " ++ right.render).toList ++ rest)
        (vs ++ ts) := by
  by_cases hempty : right.render = ""
  · rw [if_pos hempty]
    rw [hempty] at hlexed
    obtain rfl := hlexed.eq_nil
    exact ⟨hrest, hts⟩
  · rw [if_neg hempty, String.toList_append, List.append_assoc]
    exact ⟨.separator (by decide), (hlexed hrest hts).space⟩

theorem written_binary {m : Mark} {op : BinaryOp} {left right : Expr} (hleft : left.Written)
    (hright : right.Written) : (binary m op left right).Written := by
  obtain ⟨us, hus, hlexed⟩ := hleft
  obtain ⟨vs, hvs, hlexed'⟩ := hright
  refine ⟨us ++ .symbol op.sign :: vs, ⟨us, vs, hus, hvs, rfl⟩, ?_⟩
  intro rest ts hrest hts
  obtain ⟨hcloses, htail⟩ := lexed_right hlexed' hrest hts
  have hop := Lexes.symbol op.sign (hcloses.ends op.sign) htail
  rw [← op.toList_spelling] at hop
  rw [render, renderBinary, List.append_assoc]
  by_cases hempty : left.render = ""
  · rw [if_pos hempty]
    rw [hempty] at hlexed
    obtain rfl := hlexed.eq_nil
    simpa using hop
  · rw [if_neg hempty]
    have hall := hlexed (.separator (by decide)) hop.space
    simpa using hall

/-- A name does not begin with a digit, so a point before it begins no fraction. -/
theorem closes_member {name : String} (hname : IsName name) (rest : List Char) :
    Closes ('.' :: (name.toList ++ rest)) := by
  obtain ⟨c, cs, hcons, -, -, hdigit⟩ := hname.starts
  refine ⟨by simp; decide, by simp, by simp, by simp, ?_⟩
  rw [hcons]
  simp [startsFraction, hdigit]

theorem written_member {m : Mark} {receiver : Expr} {name : String} (hreceiver : receiver.Written)
    (hname : IsName name) : (member m receiver name).Written := by
  obtain ⟨us, hus, hlexed⟩ := hreceiver
  refine ⟨_, ⟨us, hus, rfl⟩, ?_⟩
  intro rest ts hrest hts
  have hdot := Lexes.symbol .dot trivial (hts.ident hname hrest)
  have hall := hlexed (closes_member hname rest) hdot
  simpa [render] using hall

/-- **The text of a well-formed tree holds the tokens of the trimmed tree.** -/
theorem written {e : Expr} : e.WellFormed → e.Resolved → e.Writable → e.Written := by
  induction e using children_induction with
  | step e ih =>
    intro hwf hres hwrite
    have hparts : ∀ c ∈ e.children, c.Written := fun c hc =>
      ih c hc (hwf.child hc) ((resolved_iff.mp hres).2 c hc) (hwrite.child hc)
    cases e with
    | missing m => exact ⟨[], rfl, .empty⟩
    | literal m value =>
      exact ⟨_, rfl, Literal.lexed (hwrite.word (by simp [words]))⟩
    | ident m name =>
      have hname : IsName name := (hwrite.word (t := .ident name) (by simp [words])).1
      exact ⟨_, rfl, fun rest ts hrest hts => hts.ident hname hrest⟩
    | paren m inner =>
      obtain ⟨us, hus, hlexed⟩ := hparts inner (by simp [children])
      refine ⟨_, ⟨us, hus, rfl⟩, ?_⟩
      intro rest ts _ hts
      have hinner := hlexed (.separator (by decide)) (Lexes.symbol .rParen trivial hts)
      simpa [render, Symbol.spelling] using Lexes.symbol .lParen trivial hinner
    | unary m op operand =>
      obtain ⟨us, hus, hlexed⟩ := hparts operand (by simp [children])
      refine ⟨_, ⟨us, hus, rfl⟩, ?_⟩
      intro rest ts hrest hts
      have hhead := head?_ne_equal (hwf.child (by simp [children])) hus hlexed hrest hts
      have hends : op.sign.Ends (operand.render.toList ++ rest) := by
        cases op with
        | neg => exact trivial
        | not => exact hhead
      have hall := Lexes.symbol op.sign hends (hlexed hrest hts)
      rw [← op.toList_spelling] at hall
      simpa [render] using hall
    | binary m op left right =>
      exact written_binary (hparts left (by simp [children])) (hparts right (by simp [children]))
    | member m receiver name =>
      exact written_member (hparts receiver (by simp [children]))
        (hwrite.word (t := .ident name) (by simp [words])).1
    | call m callee args =>
      obtain ⟨us, hus, hlexed⟩ := hparts callee (by simp [children])
      have hargs : ∀ a ∈ args, a.Written := fun a ha => hparts a (by simp [children, ha])
      obtain ⟨vs, hvs, hlexes⟩ := lexes_enclosed hargs
      refine ⟨_, ⟨us, vs, hus, hvs, rfl⟩, ?_⟩
      intro rest ts _ hts
      have hall := hlexed (.separator (by decide)) (hlexes hts).1
      simpa [render] using hall
    | index m receiver args =>
      obtain ⟨us, hus, hlexed⟩ := hparts receiver (by simp [children])
      have hargs : ∀ a ∈ args, a.Written := fun a ha => hparts a (by simp [children, ha])
      obtain ⟨vs, hvs, hlexes⟩ := lexes_enclosed hargs
      refine ⟨_, ⟨us, vs, hus, hvs, rfl⟩, ?_⟩
      intro rest ts _ hts
      have hall := hlexed (.separator (by decide)) (hlexes hts).2
      simpa [render] using hall
    | new m ty args init =>
      have hargs : ∀ a ∈ args.getD [], a.Written := fun a ha => hparts a (by simp [children, ha])
      have hinit : ∀ a ∈ init.getD [], a.Written := fun a ha => hparts a (by simp [children, ha])
      obtain ⟨us, hus, hlexed⟩ := lexed_arguments hargs
      obtain ⟨vs, hvs, hlexed'⟩ := lexed_initializer hinit
      have hty := TypeExpr.lexed (resolved_iff.mp hres).1 fun x hx =>
        (hwrite.word (t := .ident x) (by simp [words, hx])).1
      refine ⟨_, ⟨us, vs, hus, hvs, rfl⟩, ?_⟩
      intro rest ts hrest hts
      have hcloses := joins_initializer init hrest
      have hparts := hlexed hcloses (hlexed' hrest hts)
      have htype := hty (joins_arguments args hcloses) hparts
      have hnew := Lexes.keyword .new (.separator (by decide)) htype.space
      simpa [render_new, Keyword.spelling] using hnew

end Expr

end ListSugar
