/-
Every expression that is read spans the tokens it was read from.

The parser is taken apart once, function by function, and each function is shown to
build only trees that span what it used up.  The loops carry the tree built so far:
the operators and suffixes after it extend its span to the right.  `expr_spans` is
the result, and everything else about trees that were read is derived from it
without opening the parser again.
-/
import ListSugar.Proofs.Grammar.Exprs

namespace ListSugar

namespace Parser

open TokenStream ListSugar.Expr

/-! ### Operators

A level reads an operand and then goes round, with the tree that was built so far on the
left.  What is kept in a round is that this tree spans everything that was read, and that
it binds at least as tightly as the level.
-/

theorem operatorsAfter_spans {i : Nat} {level : Level} (hi : Level.all[i]? = some level)
    {operand : Parser Expr}
    (hoperand : ∀ {s e t}, operand s = .ok e t → e.Spans s t ∧ i < e.rank) :
    ∀ {n : Nat} {s₀ s t : TokenStream} {left e : Expr}, left.Spans s₀ s → i ≤ left.rank →
      operatorsAfter level operand n left s = .ok e t → e.Spans s₀ t ∧ i ≤ e.rank := by
  intro n
  induction n with
  | zero =>
    intro s₀ s t left e hleft hrank h
    obtain ⟨rfl, rfl⟩ := pure_eq_ok_iff.mp h
    exact ⟨hleft, hrank⟩
  | succ n ih =>
    intro s₀ s t left e hleft hrank h
    simp only [operatorsAfter, token_bind] at h
    cases hop : level s.current.token with
    | none =>
      rw [hop] at h
      obtain ⟨rfl, rfl⟩ := pure_eq_ok_iff.mp h
      exact ⟨hleft, hrank⟩
    | some op =>
      rw [hop] at h
      simp only [skip_bind] at h
      obtain ⟨right, u, hright, h⟩ := bind_eq_ok_iff.mp h
      rw [markAt_bind] at h
      obtain ⟨htoken, rfl⟩ := (Level.eq_some_iff hi).mp hop
      obtain ⟨hspan, hlt⟩ := hoperand hright
      refine ih ?_ (Nat.le_refl _) h
      exact ⟨hrank, hlt, s, u, hleft, htoken, hspan, rfl, rfl⟩

theorem operators_spans {operand : Parser Expr} {n : Nat}
    (hoperand : ∀ {s e t}, operand s = .ok e t → e.Spans s t ∧ 6 ≤ e.rank) :
    ∀ {levels : List Level} {i : Nat}, Level.all.drop i = levels → i ≤ 6 →
      ∀ {s t : TokenStream} {e : Expr},
        operators operand n levels s = .ok e t → e.Spans s t ∧ i ≤ e.rank := by
  intro levels
  induction levels with
  | nil =>
    intro i _ hi6 s t e h
    obtain ⟨hspan, hrank⟩ := hoperand h
    exact ⟨hspan, Nat.le_trans hi6 hrank⟩
  | cons level tighter ih =>
    intro i hdrop _ s t e h
    obtain ⟨hlt, hlevel, htighter⟩ := Level.drop_eq_cons hdrop
    have hinner : ∀ {s e t}, operators operand n tighter s = .ok e t →
        e.Spans s t ∧ i < e.rank := fun h' => ih htighter hlt h'
    obtain ⟨first, u, hfirst, h⟩ := bind_eq_ok_iff.mp h
    obtain ⟨hspan, hrank⟩ := hinner hfirst
    exact operatorsAfter_spans hlevel hinner hspan (Nat.le_of_lt hrank) h

theorem signed_spans {operand : Parser Expr}
    (hoperand : ∀ {s e t}, operand s = .ok e t → e.Spans s t ∧ e.rank = 7) :
    ∀ {n : Nat} {s t : TokenStream} {e : Expr},
      signed operand n s = .ok e t → e.Spans s t ∧ 6 ≤ e.rank := by
  intro n
  induction n with
  | zero =>
    intro s t e h
    obtain ⟨hspan, hrank⟩ := hoperand h
    exact ⟨hspan, by omega⟩
  | succ n ih =>
    intro s t e h
    simp only [signed, token_bind] at h
    cases hop : s.current.token.unaryOp? with
    | none =>
      rw [hop] at h
      obtain ⟨hspan, hrank⟩ := hoperand h
      exact ⟨hspan, by omega⟩
    | some op =>
      rw [hop] at h
      simp only [place_bind, skip_bind] at h
      obtain ⟨inner, u, hinner, h⟩ := bind_eq_ok_iff.mp h
      rw [markAt_bind] at h
      obtain ⟨rfl, rfl⟩ := pure_eq_ok_iff.mp h
      obtain ⟨hspan, hrank⟩ := ih hinner
      exact ⟨⟨Token.unaryOp?_eq_some_iff.mp hop, hrank, u, hspan, rfl, rfl⟩, Nat.le_refl _⟩

/-! ### Suffixes -/

theorem arguments_spans {inner : Parser Expr}
    (hinner : ∀ {s e t}, inner s = .ok e t → e.Spans s t) {n : Nat} {close : Symbol}
    {s t : TokenStream} {args : List Expr} (h : arguments inner n close s = .ok args t) :
    Enclosed close args (fun s t => SpansAll args s t) s t := by
  simp only [arguments, accept_bind] at h
  split at h
  · next hclose =>
    obtain ⟨rfl, rfl⟩ := pure_eq_ok_iff.mp h
    exact Or.inl ⟨rfl, hclose, rfl⟩
  · next hclose =>
    obtain ⟨items, u, hitems, h⟩ := bind_eq_ok_iff.mp h
    obtain ⟨_, v, hexpect, h⟩ := bind_eq_ok_iff.mp h
    obtain ⟨rfl, rfl⟩ := pure_eq_ok_iff.mp h
    obtain ⟨hcurrent, rfl⟩ := expect_eq_ok_iff.mp hexpect
    refine Or.inr ⟨hclose, u, ?_, hcurrent, rfl⟩
    exact spansAll_iff.mpr (commaSeparated_separated hinner hitems)

theorem suffixes_spans {inner : Parser Expr}
    (hinner : ∀ {s e t}, inner s = .ok e t → e.Spans s t) :
    ∀ {n : Nat} {s₀ s t : TokenStream} {head e : Expr}, head.Spans s₀ s → head.rank = 7 →
      suffixes inner n head s = .ok e t → e.Spans s₀ t ∧ e.rank = 7 := by
  intro n
  induction n with
  | zero =>
    intro s₀ s t head e hhead hrank h
    obtain ⟨rfl, rfl⟩ := pure_eq_ok_iff.mp h
    exact ⟨hhead, hrank⟩
  | succ n ih =>
    intro s₀ s t head e hhead hrank h
    rw [suffixes_succ] at h
    split at h
    · next hdot =>
      obtain ⟨member, u, hmember, h⟩ := bind_eq_ok_iff.mp h
      obtain ⟨hident, rfl⟩ := name_eq_ok_iff.mp hmember
      rw [markAt_bind] at h
      refine ih ?_ rfl h
      exact ⟨hrank, s, hhead, hdot, hident, rfl, rfl⟩
    · next hparen =>
      obtain ⟨args, u, hargs, h⟩ := bind_eq_ok_iff.mp h
      rw [markAt_bind] at h
      refine ih ?_ rfl h
      exact ⟨hrank, s, u, hhead, hparen, arguments_spans hinner hargs, rfl, rfl⟩
    · next hbracket =>
      obtain ⟨args, u, hargs, h⟩ := bind_eq_ok_iff.mp h
      rw [markAt_bind] at h
      refine ih ?_ rfl h
      exact ⟨hrank, s, u, Or.inl hhead, hbracket, arguments_spans hinner hargs, rfl, rfl⟩
    · cases h
      exact ⟨hhead, hrank⟩

/-! ### Primary expressions -/

theorem elements_spans {inner : Parser Expr}
    (hinner : ∀ {s e t}, inner s = .ok e t → e.Spans s t) :
    ∀ {n : Nat} {s t : TokenStream} {es : List Expr},
      elements inner n s = .ok es t → SpansElements es s t := by
  intro n
  induction n with
  | zero =>
    intro s t es h
    obtain ⟨rfl, rfl⟩ := pure_eq_ok_iff.mp h
    rfl
  | succ n ih =>
    intro s t es h
    rw [elements_succ] at h
    split at h
    · cases h
      rfl
    · cases h
      rfl
    · next hbrace _ =>
      obtain ⟨first, u, hfirst, h⟩ := bind_eq_ok_iff.mp h
      rw [accept_bind] at h
      split at h
      · next hcomma =>
        obtain ⟨others, v, hothers, h⟩ := bind_eq_ok_iff.mp h
        obtain ⟨rfl, rfl⟩ := pure_eq_ok_iff.mp h
        exact ⟨hbrace, u, hinner hfirst, Or.inr ⟨hcomma, ih hothers⟩⟩
      · obtain ⟨rfl, rfl⟩ := pure_eq_ok_iff.mp h
        exact ⟨hbrace, t, hinner hfirst, Or.inl ⟨rfl, rfl⟩⟩

theorem constructionArguments_spans {inner : Parser Expr}
    (hinner : ∀ {s e t}, inner s = .ok e t → e.Spans s t) {n : Nat} {s t : TokenStream}
    {args : Option (List Expr)} (h : constructionArguments inner n s = .ok args t) :
    SpansArguments args s t := by
  simp only [constructionArguments, accept_bind] at h
  split at h
  · next hparen =>
    obtain ⟨es, u, hes, h⟩ := bind_eq_ok_iff.mp h
    obtain ⟨rfl, rfl⟩ := pure_eq_ok_iff.mp h
    exact ⟨hparen, arguments_spans hinner hes⟩
  · next hparen =>
    obtain ⟨rfl, rfl⟩ := pure_eq_ok_iff.mp h
    exact ⟨hparen, rfl⟩

theorem constructionInitializer_spans {inner : Parser Expr}
    (hinner : ∀ {s e t}, inner s = .ok e t → e.Spans s t) {n : Nat} {s t : TokenStream}
    {init : Option (List Expr)} (h : constructionInitializer inner n s = .ok init t) :
    SpansInitializer init s t := by
  simp only [constructionInitializer, accept_bind] at h
  split at h
  · next hbrace =>
    obtain ⟨es, u, hes, h⟩ := bind_eq_ok_iff.mp h
    obtain ⟨_, v, hexpect, h⟩ := bind_eq_ok_iff.mp h
    obtain ⟨rfl, rfl⟩ := pure_eq_ok_iff.mp h
    obtain ⟨hclose, rfl⟩ := expect_eq_ok_iff.mp hexpect
    exact ⟨hbrace, u, elements_spans hinner hes, hclose, rfl⟩
  · next hbrace =>
    obtain ⟨rfl, rfl⟩ := pure_eq_ok_iff.mp h
    exact ⟨hbrace, rfl⟩

theorem construction_spans {inner : Parser Expr}
    (hinner : ∀ {s e t}, inner s = .ok e t → e.Spans s t) {n : Nat} {s t : TokenStream}
    {e : Expr} (hnew : s.current.token = .keyword .new)
    (h : construction inner n s.current.pos s.advance = .ok e t) :
    e.Spans s t ∧ e.rank = 7 := by
  rw [construction_apply] at h
  obtain ⟨ty, u, hty, h⟩ := bind_eq_ok_iff.mp h
  obtain ⟨args, v, hargs, h⟩ := bind_eq_ok_iff.mp h
  obtain ⟨init, w, hinit, h⟩ := bind_eq_ok_iff.mp h
  split at h
  · rw [token_bind] at h
    exact absurd h fail_ne_ok
  · next hpart =>
    rw [markAt_bind] at h
    obtain ⟨rfl, rfl⟩ := pure_eq_ok_iff.mp h
    refine ⟨⟨hnew, ?_, u, v, w, type_takes hty, constructionArguments_spans hinner hargs,
      constructionInitializer_spans hinner hinit, rfl, rfl⟩, rfl⟩
    cases args with
    | some es => exact Or.inl rfl
    | none =>
      cases init with
      | some es => exact Or.inr rfl
      | none => exact absurd rfl hpart

theorem primary_spans {inner : Parser Expr}
    (hinner : ∀ {s e t}, inner s = .ok e t → e.Spans s t) {n : Nat} {s t : TokenStream}
    {e : Expr} (h : primary inner n s = .ok e t) : e.Spans s t ∧ e.rank = 7 := by
  rw [primary_apply] at h
  split at h
  · next hident =>
    cases h
    exact ⟨⟨hident, rfl, rfl⟩, rfl⟩
  · next hparen =>
    obtain ⟨body, u, hbody, h⟩ := bind_eq_ok_iff.mp h
    obtain ⟨_, v, hexpect, h⟩ := bind_eq_ok_iff.mp h
    obtain ⟨hclose, rfl⟩ := expect_eq_ok_iff.mp hexpect
    rw [markAt_bind] at h
    obtain ⟨rfl, rfl⟩ := pure_eq_ok_iff.mp h
    exact ⟨⟨hparen, u, hinner hbody, hclose, rfl, rfl⟩, rfl⟩
  · next hbracket =>
    obtain ⟨args, u, hargs, h⟩ := bind_eq_ok_iff.mp h
    rw [markAt_bind] at h
    obtain ⟨rfl, rfl⟩ := pure_eq_ok_iff.mp h
    exact ⟨⟨rfl, s.numbered, u, Or.inr ⟨rfl, rfl⟩, hbracket, arguments_spans hinner hargs,
      rfl, rfl⟩, rfl⟩
  · next hnew => exact construction_spans hinner hnew h
  · split at h
    · next value hlit =>
      cases h
      exact ⟨⟨Token.literal?_eq_some_iff.mp hlit, rfl, rfl⟩, rfl⟩
    · split at h
      · next hends =>
        cases h
        exact ⟨⟨hends, rfl, rfl⟩, rfl⟩
      · exact absurd h fail_ne_ok

/-! ### Whole expressions -/

/-- An operand of an expression whose nested expressions are at most `n` deep: a primary
expression and its suffixes. -/
def operandNested (n : Nat) : Parser Expr := do
  suffixes (exprNested n) (n + 1) (← primary (exprNested n) n)

theorem exprNested_succ (n : Nat) : exprNested (n + 1)
    = operators (signed (operandNested n) (n + 1)) (n + 1) Level.all := rfl

theorem operandNested_spans {n : Nat}
    (hinner : ∀ {s e t}, exprNested n s = .ok e t → e.Spans s t) {s t : TokenStream}
    {e : Expr} (h : operandNested n s = .ok e t) : e.Spans s t ∧ e.rank = 7 := by
  obtain ⟨head, u, hhead, h⟩ := bind_eq_ok_iff.mp h
  obtain ⟨hspan, hrank⟩ := primary_spans hinner hhead
  exact suffixes_spans hinner hspan hrank h

theorem exprNested_spans : ∀ {n : Nat} {s t : TokenStream} {e : Expr},
    exprNested n s = .ok e t → e.Spans s t := by
  intro n
  induction n with
  | zero =>
    intro s t e h
    exact absurd h fail_ne_ok
  | succ n ih =>
    intro s t e h
    rw [exprNested_succ] at h
    have hsigned : ∀ {s e t}, signed (operandNested n) (n + 1) s = .ok e t →
        e.Spans s t ∧ 6 ≤ e.rank := signed_spans (operandNested_spans ih)
    exact (operators_spans hsigned (i := 0) rfl (by omega) h).1

/-- **An expression that was read spans the tokens it was read from.** -/
theorem expr_spans {s t : TokenStream} {e : Expr} (h : expr s = .ok e t) : e.Spans s t := by
  rw [expr, remaining_bind] at h
  exact exprNested_spans h

end Parser

end ListSugar
