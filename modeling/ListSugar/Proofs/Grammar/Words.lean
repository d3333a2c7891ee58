/-
Which tokens a spelling holds.

Apart from the brackets, commas and points that hold a tree together, the tokens that
write it are the words of its nodes: `Spells.mem_iff` says so in both directions.  A
spelling without braces is the only one, since nothing but the comma at the end of an
initializer is left open; and no spelling holds a token that follows a declared name,
so the end of a statement can be found from its tokens alone.
-/
import ListSugar.Proofs.Grammar.Exprs

namespace ListSugar

/-- The tokens that hold the parts of a tree together. -/
def Token.isPunctuation : Token → Bool
  | .symbol .dot => true
  | .symbol .comma => true
  | .symbol .lParen => true
  | .symbol .rParen => true
  | .symbol .lBracket => true
  | .symbol .rBracket => true
  | .symbol .lBrace => true
  | .symbol .rBrace => true
  | _ => false

namespace Expr

/-- The tokens that a node adds to those of its parts, punctuation apart. -/
def words : Expr → List Token
  | .missing _ => []
  | .literal _ value => [value.token]
  | .ident _ name => [.ident name]
  | .paren _ _ => []
  | .unary _ op _ => [.symbol op.sign]
  | .binary _ op _ _ => [.symbol op.sign]
  | .member _ _ name => [.ident name]
  | .call _ _ _ => []
  | .index _ _ _ => []
  | .new _ ty _ _ => .keyword .new :: ty.tokens

/-- The token is a word of some node of the tree. -/
def Has (e : Expr) (t : Token) : Prop := ∃ n ∈ e.nodes, t ∈ n.words

theorem has_iff {e : Expr} {t : Token} :
    e.Has t ↔ t ∈ e.words ∨ ∃ c ∈ e.children, c.Has t := by
  unfold Has
  rw [nodes_eq]
  simp
  grind

/-! ### The words of a tree are in its spelling -/

theorem spellsRest_mem_iff {t : Token} (ht : t.isPunctuation = false) :
    ∀ {es : List Expr} {ts : List Token}, SpellsRest es ts →
      (∀ e ∈ es, ∀ {us}, e.Spells us → (t ∈ us ↔ e.Has t)) →
      (t ∈ ts ↔ ∃ e ∈ es, e.Has t) := by
  intro es
  induction es with
  | nil =>
    rintro ts rfl _
    simp
  | cons e rest ih =>
    rintro ts ⟨us, vs, hus, hvs, rfl⟩ hmem
    have hcomma : t ≠ .symbol .comma := by
      rintro rfl
      cases ht
    have hfirst := hmem e (by simp) hus
    have hrest := ih hvs fun c hc => hmem c (by simp [hc])
    simp [hcomma, hfirst, hrest]

theorem spellsAll_mem_iff {t : Token} (ht : t.isPunctuation = false) {es : List Expr}
    {ts : List Token} (h : SpellsAll es ts)
    (hmem : ∀ e ∈ es, ∀ {us}, e.Spells us → (t ∈ us ↔ e.Has t)) :
    t ∈ ts ↔ ∃ e ∈ es, e.Has t := by
  cases es with
  | nil =>
    obtain rfl : ts = [] := h
    simp
  | cons e rest =>
    obtain ⟨us, vs, hus, hvs, rfl⟩ := h
    have hfirst := hmem e (by simp) hus
    have hrest := spellsRest_mem_iff ht hvs fun c hc => hmem c (by simp [hc])
    simp [hfirst, hrest]

theorem spellsArguments_mem_iff {t : Token} (ht : t.isPunctuation = false)
    {part : Option (List Expr)} {ts : List Token} (h : SpellsArguments part ts)
    (hmem : ∀ e ∈ part.getD [], ∀ {us}, e.Spells us → (t ∈ us ↔ e.Has t)) :
    t ∈ ts ↔ ∃ e ∈ part.getD [], e.Has t := by
  cases part with
  | none =>
    obtain rfl : ts = [] := h
    simp
  | some es =>
    obtain ⟨us, hus, rfl⟩ := h
    have hall := spellsAll_mem_iff ht hus hmem
    have hopen : t ≠ .symbol .lParen := by rintro rfl; cases ht
    have hclose : t ≠ .symbol .rParen := by rintro rfl; cases ht
    simp [hopen, hclose, hall]

theorem spellsInitializer_mem_iff {t : Token} (ht : t.isPunctuation = false)
    {part : Option (List Expr)} {ts : List Token} (h : SpellsInitializer part ts)
    (hmem : ∀ e ∈ part.getD [], ∀ {us}, e.Spells us → (t ∈ us ↔ e.Has t)) :
    t ∈ ts ↔ ∃ e ∈ part.getD [], e.Has t := by
  cases part with
  | none =>
    obtain rfl : ts = [] := h
    simp
  | some es =>
    obtain ⟨us, hus, hts⟩ := h
    have hall := spellsAll_mem_iff ht hus hmem
    have hopen : t ≠ .symbol .lBrace := by rintro rfl; cases ht
    have hcomma : t ≠ .symbol .comma := by rintro rfl; cases ht
    have hclose : t ≠ .symbol .rBrace := by rintro rfl; cases ht
    rcases hts with ⟨rfl, -⟩ | ⟨rfl, -⟩ <;> simp [hopen, hcomma, hclose, hall]

/-- **Punctuation apart, a spelling holds exactly the words of the nodes.** -/
theorem Spells.mem_iff {t : Token} (ht : t.isPunctuation = false) {e : Expr} :
    ∀ {ts : List Token}, e.Spells ts → (t ∈ ts ↔ e.Has t) := by
  induction e using children_induction with
  | step e ih =>
    intro ts h
    rw [has_iff]
    cases e with
    | missing m =>
      obtain rfl : ts = [] := h
      simp [words, children]
    | literal m value =>
      obtain rfl : ts = [value.token] := h
      simp [words, children]
    | ident m name =>
      obtain rfl : ts = [.ident name] := h
      simp [words, children]
    | paren m inner =>
      obtain ⟨us, hus, rfl⟩ := h
      have hopen : t ≠ .symbol .lParen := by rintro rfl; cases ht
      have hclose : t ≠ .symbol .rParen := by rintro rfl; cases ht
      simp [words, children, hopen, hclose, ih inner (by simp [children]) hus]
    | unary m op operand =>
      obtain ⟨us, hus, rfl⟩ := h
      simp [words, children, ih operand (by simp [children]) hus]
    | binary m op left right =>
      obtain ⟨us, vs, hus, hvs, rfl⟩ := h
      have hleft := ih left (by simp [children]) hus
      have hright := ih right (by simp [children]) hvs
      simp [words, children, hleft, hright, or_left_comm]
    | member m receiver name =>
      obtain ⟨us, hus, rfl⟩ := h
      have hdot : t ≠ .symbol .dot := by rintro rfl; cases ht
      simp [words, children, hdot, ih receiver (by simp [children]) hus, or_comm]
    | call m callee args =>
      obtain ⟨us, vs, hus, hvs, rfl⟩ := h
      have hopen : t ≠ .symbol .lParen := by rintro rfl; cases ht
      have hclose : t ≠ .symbol .rParen := by rintro rfl; cases ht
      have hcallee := ih callee (by simp [children]) hus
      have hargs := spellsAll_mem_iff ht hvs fun c hc => ih c (by simp [children, hc])
      simp [words, children, hopen, hclose, hcallee, hargs]
    | index m receiver args =>
      obtain ⟨us, vs, hus, hvs, rfl⟩ := h
      have hopen : t ≠ .symbol .lBracket := by rintro rfl; cases ht
      have hclose : t ≠ .symbol .rBracket := by rintro rfl; cases ht
      have hreceiver := ih receiver (by simp [children]) hus
      have hargs := spellsAll_mem_iff ht hvs fun c hc => ih c (by simp [children, hc])
      simp [words, children, hopen, hclose, hreceiver, hargs]
    | new m ty args init =>
      obtain ⟨us, vs, hus, hvs, rfl⟩ := h
      have hargs := spellsArguments_mem_iff ht hus fun c hc => ih c (by simp [children, hc])
      have hinit := spellsInitializer_mem_iff ht hvs fun c hc => ih c (by simp [children, hc])
      simp [words, children, hargs, hinit, or_and_right, exists_or, or_assoc]

/-- No word can follow a declared name. -/
theorem followsDeclared_of_mem_words {n : Expr} {t : Token} (h : t ∈ n.words) :
    Parser.followsDeclared t = false := by
  cases n with
  | missing m => cases h
  | literal m value =>
    obtain rfl : t = value.token := by simpa [words] using h
    cases value <;> rfl
  | ident m name =>
    obtain rfl : t = .ident name := by simpa [words] using h
    rfl
  | paren m inner => cases h
  | unary m op operand =>
    obtain rfl : t = .symbol op.sign := by simpa [words] using h
    cases op <;> rfl
  | binary m op left right =>
    obtain rfl : t = .symbol op.sign := by simpa [words] using h
    cases op <;> rfl
  | member m receiver name =>
    obtain rfl : t = .ident name := by simpa [words] using h
    rfl
  | call m callee args => cases h
  | index m receiver args => cases h
  | new m ty args init =>
    rcases (by simpa [words] using h : t = .keyword .new ∨ t ∈ ty.tokens) with rfl | hty
    · rfl
    · have := ty.isTypeToken_of_mem_tokens t hty
      unfold TypeExpr.isTypeToken at this
      split at this <;> first | rfl | cases this

theorem Spells.followsDeclared_of_mem {e : Expr} {ts : List Token} (h : e.Spells ts) {t : Token}
    (ht : t ∈ ts) : Parser.followsDeclared t = false := by
  cases hf : Parser.followsDeclared t with
  | false => rfl
  | true =>
    have hp : t.isPunctuation = false := by
      unfold Parser.followsDeclared at hf
      split at hf <;> first | rfl | cases hf
    obtain ⟨n, -, hn⟩ := (h.mem_iff hp).mp ht
    rw [followsDeclared_of_mem_words hn] at hf
    cases hf

/-! ### A spelling without braces is the only one

Only behind the last element of an initializer may a comma stand or be left out.  The head
of a declaration has no braces, so if a tree can be written as one, all its spellings are
that one.
-/

theorem spellsRest_unique : ∀ {es : List Expr} {us vs : List Token}, SpellsRest es us →
    SpellsRest es vs → .symbol .lBrace ∉ us →
    (∀ e ∈ es, ∀ {us vs}, e.Spells us → e.Spells vs → Token.symbol .lBrace ∉ us → us = vs) →
    us = vs := by
  intro es
  induction es with
  | nil =>
    rintro us vs rfl rfl _ _
    rfl
  | cons e rest ih =>
    rintro us vs ⟨as, bs, has, hbs, rfl⟩ ⟨cs, ds, hcs, hds, rfl⟩ hbrace heq
    simp only [List.mem_cons, List.mem_append, not_or] at hbrace
    have hfirst := heq e (by simp) has hcs hbrace.2.1
    have hrest := ih hbs hds hbrace.2.2 fun c hc => heq c (by simp [hc])
    rw [hfirst, hrest]

theorem spellsAll_unique {es : List Expr} {us vs : List Token} (h : SpellsAll es us)
    (h' : SpellsAll es vs) (hbrace : .symbol .lBrace ∉ us)
    (heq : ∀ e ∈ es, ∀ {us vs}, e.Spells us → e.Spells vs → Token.symbol .lBrace ∉ us → us = vs) :
    us = vs := by
  cases es with
  | nil =>
    obtain rfl : us = [] := h
    obtain rfl : vs = [] := h'
    rfl
  | cons e rest =>
    obtain ⟨as, bs, has, hbs, rfl⟩ := h
    obtain ⟨cs, ds, hcs, hds, rfl⟩ := h'
    simp only [List.mem_append, not_or] at hbrace
    rw [heq e (by simp) has hcs hbrace.1,
      spellsRest_unique hbs hds hbrace.2 fun c hc => heq c (by simp [hc])]

theorem Spells.unique {e : Expr} : ∀ {us vs : List Token}, e.Spells us → e.Spells vs →
    .symbol .lBrace ∉ us → us = vs := by
  induction e using children_induction with
  | step e ih =>
    intro us vs h h' hbrace
    cases e with
    | missing m => exact h.trans h'.symm
    | literal m value => exact h.trans h'.symm
    | ident m name => exact h.trans h'.symm
    | paren m inner =>
      obtain ⟨as, has, rfl⟩ := h
      obtain ⟨bs, hbs, rfl⟩ := h'
      simp only [List.mem_cons, List.mem_append, not_or] at hbrace
      rw [ih inner (by simp [children]) has hbs hbrace.2.1]
    | unary m op operand =>
      obtain ⟨as, has, rfl⟩ := h
      obtain ⟨bs, hbs, rfl⟩ := h'
      simp only [List.mem_cons, not_or] at hbrace
      rw [ih operand (by simp [children]) has hbs hbrace.2]
    | binary m op left right =>
      obtain ⟨as, bs, has, hbs, rfl⟩ := h
      obtain ⟨cs, ds, hcs, hds, rfl⟩ := h'
      simp only [List.mem_cons, List.mem_append, not_or] at hbrace
      rw [ih left (by simp [children]) has hcs hbrace.1,
        ih right (by simp [children]) hbs hds hbrace.2.2]
    | member m receiver name =>
      obtain ⟨as, has, rfl⟩ := h
      obtain ⟨bs, hbs, rfl⟩ := h'
      simp only [List.mem_append, not_or] at hbrace
      rw [ih receiver (by simp [children]) has hbs hbrace.1]
    | call m callee args =>
      obtain ⟨as, bs, has, hbs, rfl⟩ := h
      obtain ⟨cs, ds, hcs, hds, rfl⟩ := h'
      simp only [List.mem_cons, List.mem_append, not_or] at hbrace
      rw [ih callee (by simp [children]) has hcs hbrace.1,
        spellsAll_unique hbs hds hbrace.2.2.1 fun c hc => ih c (by simp [children, hc])]
    | index m receiver args =>
      obtain ⟨as, bs, has, hbs, rfl⟩ := h
      obtain ⟨cs, ds, hcs, hds, rfl⟩ := h'
      simp only [List.mem_cons, List.mem_append, not_or] at hbrace
      rw [ih receiver (by simp [children]) has hcs hbrace.1,
        spellsAll_unique hbs hds hbrace.2.2.1 fun c hc => ih c (by simp [children, hc])]
    | new m ty args init =>
      obtain ⟨as, bs, has, hbs, rfl⟩ := h
      obtain ⟨cs, ds, hcs, hds, rfl⟩ := h'
      simp only [List.mem_cons, List.mem_append, not_or] at hbrace
      cases init with
      | some es =>
        obtain ⟨ws, -, ⟨rfl, -⟩ | ⟨rfl, -⟩⟩ := hbs <;> exact absurd (by simp) hbrace.2.2.2
      | none =>
        obtain rfl : bs = [] := hbs
        obtain rfl : ds = [] := hds
        cases args with
        | none =>
          obtain rfl : as = [] := has
          obtain rfl : cs = [] := hcs
          rfl
        | some es =>
          obtain ⟨as, has, rfl⟩ := has
          obtain ⟨cs, hcs, rfl⟩ := hcs
          simp only [List.mem_cons, List.mem_append, not_or] at hbrace
          rw [spellsAll_unique has hcs hbrace.2.2.1.2.1 fun c hc => ih c (by simp [children, hc])]

end Expr

end ListSugar
