/-
The tokens of a well-formed tree are read as that tree.

This is the converse of what holds of trees that were read.  A tree stands at a
stream, in front of `rest`, when its tokens do; if its last operand is missing, the
first token of `rest` has to be one that ends operands, and it is never a brace that a
construction could take for its own.  Then the parser gives the tree back, up to marks,
and stops in front of `rest`.

Operators and suffixes group to the left, so the parser meets the innermost operand
first and builds the tree around it.  The statements follow that order: `ChainRead`
and `OperandRead` say that reading a tree comes down to going on with the loop that
extends it, whatever is to be shown of that loop.
-/
import ListSugar.Proofs.Grammar.Reading

namespace ListSugar

/-! ### What may follow

The parser goes on as long as the next token lets it.  A tree is given back as it is only
in front of a token that neither continues its last operand nor joins it to another one by
an operator that binds as tightly as allowed there.
-/

/-- Whether a token continues the operand in front of it. -/
def Token.startsSuffix : Token → Bool
  | .symbol .dot => true
  | .symbol .lParen => true
  | .symbol .lBracket => true
  | _ => false

/-- A token that neither continues an operand nor is an operator of the levels from place
`i` on. -/
def Token.Stops (i : Nat) (t : Token) : Prop :=
  t.startsSuffix = false ∧ ∀ level ∈ Level.all.drop i, level t = none

theorem Token.Stops.succ {i : Nat} {t : Token} (h : t.Stops i) : t.Stops (i + 1) := by
  refine ⟨h.1, fun level hmem => h.2 level ?_⟩
  rw [← List.tail_drop] at hmem
  exact List.mem_of_mem_tail hmem

/-- An operator stops the levels that bind tighter than it. -/
theorem BinaryOp.sign_stops (op : BinaryOp) : (Token.symbol op.sign).Stops (op.rank + 1) := by
  cases op <;> exact ⟨rfl, by simp [Level.all, rank, sign, Level.conjunction, Level.equality,
    Level.comparison, Level.sum, Level.product]⟩

theorem BinaryOp.sign_ne_lBrace (op : BinaryOp) : Token.symbol op.sign ≠ .symbol .lBrace := by
  cases op <;> simp [sign]

/-- Whether a token ends expressions and stands between or behind them. -/
def Token.delimits : Token → Bool
  | .symbol .comma => true
  | .symbol .semi => true
  | .symbol .rParen => true
  | .symbol .rBracket => true
  | .symbol .rBrace => true
  | _ => false

theorem Token.Stops.of_delimits {t : Token} (h : t.delimits = true) : t.Stops 0 := by
  unfold Token.delimits at h
  split at h <;> first
    | exact ⟨rfl, by simp [Level.all, Level.disjunction, Level.conjunction, Level.equality,
        Level.comparison, Level.sum, Level.product]⟩
    | cases h

theorem Token.endsOperand_of_delimits {t : Token} (h : t.delimits = true) :
    t.endsOperand = true := by
  unfold Token.delimits at h
  split at h <;> first | rfl | cases h

/-- Whether a token can be the first one of an expression. -/
def Token.opens : Token → Bool
  | .int _ => true
  | .double _ => true
  | .str _ => true
  | .char _ => true
  | .bool _ => true
  | .null => true
  | .ident _ => true
  | .keyword .new => true
  | .symbol .lParen => true
  | .symbol .lBracket => true
  | .symbol .minus => true
  | .symbol .bang => true
  | .symbol .lt => true
  | .symbol .gt => true
  | .symbol .lte => true
  | .symbol .gte => true
  | _ => false

namespace Expr

/-! ### The first token of a tree -/

theorem isMissing_of_spells_nil {e : Expr} (h : e.Spells []) : e.isMissing = true := by
  cases e with
  | missing m => rfl
  | literal m value => cases h
  | ident m name => cases h
  | paren m inner =>
    obtain ⟨us, -, h⟩ := h
    cases h
  | unary m op operand =>
    obtain ⟨us, -, h⟩ := h
    cases h
  | binary m op left right =>
    obtain ⟨us, vs, -, -, h⟩ := h
    simp at h
  | member m receiver name =>
    obtain ⟨us, -, h⟩ := h
    simp at h
  | call m callee args =>
    obtain ⟨us, vs, -, -, h⟩ := h
    simp at h
  | index m receiver args =>
    obtain ⟨us, vs, -, -, h⟩ := h
    simp at h
  | new m ty args init =>
    obtain ⟨us, vs, -, -, h⟩ := h
    cases h

theorem endsMissing_of_isMissing {e : Expr} (h : e.isMissing = true) : e.endsMissing = true := by
  cases e with
  | missing m => rfl
  | _ => cases h

/-- The first of the tokens `us ++ t :: vs` is the first of `us`, or `t` if there is none. -/
theorem head_cases {us vs ts : List Token} {t first : Token}
    (h : first :: ts = us ++ t :: vs) :
    (us = [] ∧ first = t) ∨ ∃ us', us = first :: us' := by
  cases us with
  | nil =>
    simp only [List.nil_append, List.cons.injEq] at h
    exact Or.inl ⟨rfl, h.1⟩
  | cons u us' =>
    simp only [List.cons_append, List.cons.injEq] at h
    exact Or.inr ⟨us', by rw [h.1]⟩

/-- The first token of a well-formed tree can begin an expression. -/
theorem opens_of_spells {e : Expr} : e.WellFormed → ∀ {first : Token} {ts : List Token},
    e.Spells (first :: ts) → first.opens = true := by
  induction e using children_induction with
  | step e ih =>
    intro hwf first ts h
    cases e with
    | missing m => cases h
    | literal m value =>
      cases h
      cases value <;> rfl
    | ident m name =>
      cases h
      rfl
    | paren m inner =>
      obtain ⟨us, -, h⟩ := h
      cases h
      rfl
    | unary m op operand =>
      obtain ⟨us, -, h⟩ := h
      cases h
      cases op <;> rfl
    | binary m op left right =>
      obtain ⟨us, vs, hleft, -, h⟩ := h
      rcases head_cases h with ⟨rfl, rfl⟩ | ⟨us', rfl⟩
      · have hends := hwf.formed.2.2 (endsMissing_of_isMissing (isMissing_of_spells_nil hleft))
        cases op <;> first | rfl | cases hends
      · exact ih left (by simp [children]) (hwf.child (by simp [children])) hleft
    | member m receiver name =>
      obtain ⟨us, hrec, h⟩ := h
      rcases head_cases h with ⟨rfl, rfl⟩ | ⟨us', rfl⟩
      · have := isMissing_of_spells_nil hrec
        rw [hwf.formed.2] at this
        cases this
      · exact ih receiver (by simp [children]) (hwf.child (by simp [children])) hrec
    | call m callee args =>
      obtain ⟨us, vs, hcallee, -, h⟩ := h
      rcases head_cases h with ⟨rfl, rfl⟩ | ⟨us', rfl⟩
      · rfl
      · exact ih callee (by simp [children]) (hwf.child (by simp [children])) hcallee
    | index m receiver args =>
      obtain ⟨us, vs, hrec, -, h⟩ := h
      rcases head_cases h with ⟨rfl, rfl⟩ | ⟨us', rfl⟩
      · rfl
      · exact ih receiver (by simp [children]) (hwf.child (by simp [children])) hrec
    | new m ty args init =>
      obtain ⟨us, vs, -, -, h⟩ := h
      cases h
      rfl

/-- The tokens of a tree begin with one that can begin an expression, unless the tree is
missing. -/
theorem nil_or_opens_of_spells {e : Expr} (hwf : e.WellFormed) {ts : List Token}
    (h : e.Spells ts) : (ts = [] ∧ e.isMissing = true) ∨
      ∃ first others, ts = first :: others ∧ first.opens = true := by
  cases ts with
  | nil => exact Or.inl ⟨rfl, isMissing_of_spells_nil h⟩
  | cons first others => exact Or.inr ⟨first, others, rfl, opens_of_spells hwf h⟩

/-- The first token of a tree that suffixes can follow is no operator. -/
theorem unaryOp?_of_spells {e : Expr} : e.WellFormed → e.rank = 7 →
    ∀ {first : Token} {ts : List Token}, e.Spells (first :: ts) → first.unaryOp? = none := by
  induction e using children_induction with
  | step e ih =>
    intro hwf hrank first ts h
    cases e with
    | missing m => cases h
    | literal m value =>
      cases h
      cases value <;> rfl
    | ident m name =>
      cases h
      rfl
    | paren m inner =>
      obtain ⟨us, -, h⟩ := h
      cases h
      rfl
    | unary m op operand => cases hrank
    | binary m op left right =>
      have := op.rank_lt
      have : op.rank = 7 := hrank
      omega
    | member m receiver name =>
      obtain ⟨us, hrec, h⟩ := h
      rcases head_cases h with ⟨rfl, rfl⟩ | ⟨us', rfl⟩
      · rfl
      · exact ih receiver (by simp [children]) (hwf.child (by simp [children])) hwf.formed.1 hrec
    | call m callee args =>
      obtain ⟨us, vs, hcallee, -, h⟩ := h
      rcases head_cases h with ⟨rfl, rfl⟩ | ⟨us', rfl⟩
      · rfl
      · exact ih callee (by simp [children]) (hwf.child (by simp [children])) hwf.formed.1 hcallee
    | index m receiver args =>
      obtain ⟨us, vs, hrec, -, h⟩ := h
      rcases head_cases h with ⟨rfl, rfl⟩ | ⟨us', rfl⟩
      · rfl
      · exact ih receiver (by simp [children]) (hwf.child (by simp [children])) hwf.formed.1 hrec
    | new m ty args init =>
      obtain ⟨us, vs, -, -, h⟩ := h
      cases h
      rfl

end Expr

namespace Expr

open ListSugar.Parser TokenStream

/-! ### Trees in front of other tokens

A tree that groups to the left is not met from its root: the parser begins with the
innermost operand and comes to the root last.  So it is not shown that some parser gives
the tree, but that giving the tree is the same as going on from it, and the parts are then
put behind one another.
-/

/-- The tokens of the tree stand in front of `rest`, which may follow it. -/
structure Stands (e : Expr) (s : TokenStream) (rest : List Token) : Prop where
  spelled : ∃ ts, e.Spells ts ∧ s.kinds = ts ++ rest
  ends : e.endsMissing = true → (rest.headD .eof).endsOperand = true
  brace : rest.headD .eof ≠ .symbol .lBrace

/-- The tree was read up to marks, and `rest` is left. -/
def ReadAs (e : Expr) (rest : List Token) (e' : Expr) (t : TokenStream) : Prop :=
  e'.bare = e.bare ∧ t.kinds = rest

theorem Stands.length_le {e : Expr} {s : TokenStream} {rest : List Token}
    (h : e.Stands s rest) : rest.length ≤ s.kinds.length := by
  obtain ⟨ts, -, hs⟩ := h.spelled
  rw [hs, List.length_append]
  omega

/-- Reading the tree as an operand comes down to going on with its suffixes. -/
def OperandRead (e : Expr) : Prop :=
  ∀ ⦃n : Nat⦄ ⦃s : TokenStream⦄ ⦃rest : List Token⦄ ⦃R : Expr → TokenStream → Prop⦄,
    e.Stands s rest → s.kinds.length ≤ n + 1 →
    (∀ ⦃e' t k⦄, e.ReadAs rest e' t → rest.length ≤ k →
      Succeeds (suffixes (exprNested n) k e' t) R) →
    Succeeds (operandNested n s) R

/-- The tree is read where operators before an operand are allowed. -/
def SignedRead (e : Expr) : Prop :=
  ∀ ⦃n k : Nat⦄ ⦃s : TokenStream⦄ ⦃rest : List Token⦄, e.Stands s rest →
    s.kinds.length ≤ n + 1 → s.kinds.length ≤ k → (rest.headD .eof).startsSuffix = false →
    Succeeds (signed (operandNested n) k s) (e.ReadAs rest)

/-- The tree is read by the levels from place `i` on. -/
def LevelsRead (e : Expr) (i : Nat) : Prop :=
  ∀ ⦃n : Nat⦄ ⦃s : TokenStream⦄ ⦃rest : List Token⦄, e.Stands s rest →
    s.kinds.length ≤ n + 1 → (rest.headD .eof).Stops i →
    Succeeds (operators (signed (operandNested n) (n + 1)) (n + 1) (Level.all.drop i) s)
      (e.ReadAs rest)

/-- Reading the tree by the levels from place `i` on comes down to going on with the
operators of the first of them. -/
def ChainRead (e : Expr) (i : Nat) : Prop :=
  ∀ ⦃level : Level⦄ ⦃tighter : List Level⦄, Level.all.drop i = level :: tighter →
    ∀ ⦃n : Nat⦄ ⦃s : TokenStream⦄ ⦃rest : List Token⦄ ⦃R : Expr → TokenStream → Prop⦄,
      e.Stands s rest → s.kinds.length ≤ n + 1 → (rest.headD .eof).Stops (i + 1) →
      (∀ ⦃e' t k⦄, e.ReadAs rest e' t → rest.length ≤ k →
        Succeeds (operatorsAfter level
          (operators (signed (operandNested n) (n + 1)) (n + 1) tighter) k e' t) R) →
      Succeeds (operators (signed (operandNested n) (n + 1)) (n + 1) (level :: tighter) s) R

/-- A tree is read at every place where its root may stand. -/
structure Readable (e : Expr) : Prop where
  operand : e.rank = 7 → e.OperandRead
  signed : 6 ≤ e.rank → e.SignedRead
  levels : ∀ {i}, i ≤ 6 → i ≤ e.rank → e.LevelsRead i
  chain : ∀ {i}, i < 6 → i ≤ e.rank → e.ChainRead i

/-! ### Operators -/

theorem operatorsAfter_stop {level : Level} {operand : Parser Expr} {k : Nat} {left : Expr}
    {t : TokenStream} (h : level t.current.token = none) :
    operatorsAfter level operand k left t = .ok left t := by
  cases k with
  | zero => rfl
  | succ k =>
    simp only [operatorsAfter, token_bind]
    rw [h]
    rfl

theorem LevelsRead.of_chain {e : Expr} {i : Nat} (hi : i < 6) (h : e.ChainRead i) :
    e.LevelsRead i := by
  intro n s rest hstands hn hstops
  obtain ⟨level, tighter, hdrop⟩ : ∃ level tighter, Level.all.drop i = level :: tighter := by
    cases hd : Level.all.drop i with
    | nil =>
      have := congrArg List.length hd
      simp [Level.all] at this
      omega
    | cons level tighter => exact ⟨level, tighter, rfl⟩
  rw [hdrop]
  refine h hdrop hstands hn hstops.succ ?_
  intro e' t k hread _
  refine ⟨e', t, operatorsAfter_stop ?_, hread⟩
  rw [current_token, hread.2]
  exact hstops.2 level (by rw [hdrop]; simp)

theorem ChainRead.of_levels {e : Expr} {i : Nat} (h : e.LevelsRead (i + 1)) :
    e.ChainRead i := by
  intro level tighter hdrop n s rest R hstands hn hstops hgo
  obtain ⟨-, -, rfl⟩ := Level.drop_eq_cons hdrop
  refine (h hstands hn hstops).bind fun e' t hread => ?_
  exact hgo hread (Nat.le_trans hstands.length_le hn)

/-- A tree that is read by some levels is read by all looser ones. -/
theorem LevelsRead.down {e : Expr} {j : Nat} (h : e.LevelsRead j) :
    ∀ {i : Nat}, j ≤ 6 → i ≤ j → e.LevelsRead i := by
  intro i hj hi
  induction hd : j - i generalizing i with
  | zero =>
    obtain rfl : i = j := by omega
    exact h
  | succ d ih =>
    have hnext : e.LevelsRead (i + 1) := ih (by omega) (by omega)
    exact LevelsRead.of_chain (by omega) (ChainRead.of_levels hnext)

/-- A binary tree is read by its own level: the left operand first, then the operator and
the right one. -/
theorem chainRead_binary {m : Mark} {op : BinaryOp} {left right : Expr}
    (hformed : (binary m op left right).Formed) (hleft : left.ChainRead op.rank)
    (hright : right.LevelsRead (op.rank + 1)) : (binary m op left right).ChainRead op.rank := by
  intro level tighter hdrop n s rest R hstands hn hstops hgo
  obtain ⟨ts, ⟨us, vs, hus, hvs, rfl⟩, hs⟩ := hstands.spelled
  have hends := hstands.ends
  rw [List.append_assoc, List.cons_append] at hs
  obtain ⟨-, hlevel, htighter⟩ := Level.drop_eq_cons hdrop
  have hlen : s.kinds.length = us.length + (vs.length + rest.length + 1) := by
    rw [hs]
    simp
  refine hleft hdrop ⟨⟨us, hus, hs⟩, hformed.2.2, op.sign_ne_lBrace⟩ hn op.sign_stops ?_
  intro left' t k hread hk
  obtain ⟨k, rfl⟩ : ∃ j, k = j + 1 := ⟨k - 1, by simp at hk; omega⟩
  have hadv := advance_of_kinds hread.2
  have hop : level t.current.token = some op :=
    (Level.eq_some_iff hlevel).mpr ⟨current_of_kinds hread.2, rfl⟩
  simp only [operatorsAfter, token_bind]
  rw [hop]
  simp only [skip_bind]
  subst htighter
  refine Succeeds.bind (hright ⟨⟨vs, hvs, hadv⟩, hends, hstands.brace⟩ ?_ hstops) ?_
  · rw [hadv]
    simp
    omega
  · intro right' u hread'
    rw [markAt_bind]
    refine hgo ⟨?_, hread'.2⟩ (by simp at hk; omega)
    rw [bare, bare, hread.1, hread'.1]

/-! ### Operators before an operand -/

theorem suffixes_stop {inner : Parser Expr} {k : Nat} {head : Expr} {t : TokenStream}
    (h : t.current.token.startsSuffix = false) : suffixes inner k head t = .ok head t := by
  cases k with
  | zero => rfl
  | succ k =>
    rw [suffixes_succ]
    split
    · next hdot =>
      rw [hdot] at h
      cases h
    · next hparen =>
      rw [hparen] at h
      cases h
    · next hbracket =>
      rw [hbracket] at h
      cases h
    · rfl

theorem unaryOp?_of_stands {e : Expr} (hwf : e.WellFormed) (hrank : e.rank = 7)
    {s : TokenStream} {rest : List Token} (h : e.Stands s rest) :
    s.current.token.unaryOp? = none := by
  obtain ⟨ts, hts, hs⟩ := h.spelled
  cases ts with
  | nil =>
    have hends := h.ends (endsMissing_of_isMissing (isMissing_of_spells_nil hts))
    rw [current_token, hs, List.nil_append]
    generalize rest.headD .eof = t at hends
    unfold Token.endsOperand at hends
    split at hends <;> first | rfl | cases hends
  | cons first others =>
    rw [current_of_kinds hs]
    exact unaryOp?_of_spells hwf hrank hts

theorem SignedRead.of_operand {e : Expr} (hwf : e.WellFormed) (hrank : e.rank = 7)
    (h : e.OperandRead) : e.SignedRead := by
  intro n k s rest hstands hn _ hsuffix
  have hoperand : Succeeds (operandNested n s) (e.ReadAs rest) := by
    refine h hstands hn ?_
    intro e' t k' hread _
    refine ⟨e', t, suffixes_stop ?_, hread⟩
    rw [current_token, hread.2]
    exact hsuffix
  cases k with
  | zero => exact hoperand
  | succ k =>
    simp only [Parser.signed, token_bind]
    rw [unaryOp?_of_stands hwf hrank hstands]
    exact hoperand

theorem signedRead_unary {m : Mark} {op : UnaryOp} {operand : Expr} (h : operand.SignedRead) :
    (unary m op operand).SignedRead := by
  intro n k s rest hstands hn hk hsuffix
  obtain ⟨ts, ⟨us, hus, rfl⟩, hs⟩ := hstands.spelled
  have hends := hstands.ends
  rw [List.cons_append] at hs
  have hadv := advance_of_kinds hs
  have hlen : s.advance.kinds.length + 1 = s.kinds.length := by
    rw [hadv, hs]
    simp
  obtain ⟨k, rfl⟩ : ∃ j, k = j + 1 := ⟨k - 1, by omega⟩
  simp only [Parser.signed, token_bind]
  rw [Token.unaryOp?_eq_some_iff.mpr (current_of_kinds hs)]
  simp only [place_bind, skip_bind]
  refine (h ⟨⟨us, hus, hadv⟩, hends, hstands.brace⟩ (by omega) (by omega) hsuffix).bind ?_
  intro e' t hread
  rw [markAt_bind]
  refine succeeds_pure ⟨?_, hread.2⟩
  rw [bare, bare, hread.1]

/-! ### Lists of trees

A list ends at a closing sign and is written with commas, and a missing tree has no token
by which to see it.  The first token, or the comma, still tells that a list is there,
unless it is a single missing tree, and this is why `loneMissing` is excluded.
-/

/-- A readable tree is read as a whole expression in front of anything that no operator
and no suffix begins. -/
theorem Readable.exprNested {e : Expr} (h : e.Readable) {n : Nat} {s : TokenStream}
    {rest : List Token} (hstands : e.Stands s rest) (hn : s.kinds.length ≤ n)
    (hstops : (rest.headD .eof).Stops 0) : Succeeds (exprNested n s) (e.ReadAs rest) := by
  cases n with
  | zero =>
    -- No token at all is left, so the tree is missing in front of the end mark.
    obtain ⟨ts, hts, hs⟩ := hstands.spelled
    obtain ⟨rfl, rfl⟩ : ts = [] ∧ rest = [] := by
      have : (ts ++ rest).length = 0 := by rw [← hs]; omega
      simpa using this
    have := hstands.ends (endsMissing_of_isMissing (isMissing_of_spells_nil hts))
    cases this
  | succ n =>
    rw [exprNested_succ]
    exact h.levels (Nat.zero_le 6) (Nat.zero_le _) hstands hn hstops

/-- A tree in front of a delimiter stands there whether or not its last operand is
missing. -/
theorem stands_of_delimits {e : Expr} {ts rest : List Token} (hts : e.Spells ts)
    {s : TokenStream} (hs : s.kinds = ts ++ rest) (hrest : (rest.headD .eof).delimits = true) :
    e.Stands s rest :=
  ⟨⟨ts, hts, hs⟩, fun _ => Token.endsOperand_of_delimits hrest,
    fun hbrace => by rw [hbrace] at hrest; cases hrest⟩

theorem Readable.exprNested_delimited {e : Expr} (h : e.Readable) {n : Nat} {s : TokenStream}
    {ts rest : List Token} (hts : e.Spells ts) (hs : s.kinds = ts ++ rest)
    (hrest : (rest.headD .eof).delimits = true) (hn : s.kinds.length ≤ n) :
    Succeeds (Parser.exprNested n s) (e.ReadAs rest) :=
  h.exprNested (stands_of_delimits hts hs hrest) hn (Token.Stops.of_delimits hrest)

theorem spellsAll_of_spellsRest {e : Expr} {rest : List Expr} {ts : List Token}
    (h : SpellsRest (e :: rest) ts) :
    ∃ us, ts = .symbol .comma :: us ∧ SpellsAll (e :: rest) us := by
  obtain ⟨us, vs, he, hrest, rfl⟩ := h
  exact ⟨us ++ vs, rfl, us, vs, he, hrest, rfl⟩

/-- Trees were read up to marks, and `rest` is left. -/
def AllReadAs (es : List Expr) (rest : List Token) (es' : List Expr) (t : TokenStream) : Prop :=
  bareAll es' = bareAll es ∧ t.kinds = rest

theorem succeeds_commaSeparated {n : Nat} {close : Token} (hclose : close.delimits = true)
    (hcomma : close ≠ .symbol .comma) {rest : List Token} :
    ∀ {es : List Expr} {e : Expr}, (∀ a ∈ e :: es, a.Readable) →
      ∀ {k : Nat} {s : TokenStream} {ts : List Token}, SpellsAll (e :: es) ts →
        s.kinds = ts ++ close :: rest → s.kinds.length ≤ n → s.kinds.length ≤ k →
        Succeeds (commaSeparated (exprNested n) k s) (AllReadAs (e :: es) (close :: rest)) := by
  intro es
  induction es with
  | nil =>
    intro e hread k s ts hts hs hn _
    obtain ⟨us, vs, hus, rfl, rfl⟩ := hts
    rw [List.append_nil] at hs
    refine succeeds_commaSeparated_last
      ((hread e (by simp)).exprNested_delimited hus hs hclose hn) ?_
    intro e' t he'
    refine ⟨?_, ?_, he'.2⟩
    · rw [current_of_kinds he'.2]
      exact hcomma
    · simp only [bareAll, he'.1]
  | cons second others ih =>
    intro e hread k s ts hts hs hn hk
    obtain ⟨us, vs, hus, hvs, rfl⟩ := hts
    obtain ⟨vs, rfl, hall⟩ := spellsAll_of_spellsRest hvs
    rw [List.append_assoc, List.cons_append] at hs
    have hlen : s.kinds.length = us.length + (vs.length + rest.length + 2) := by
      rw [hs]
      simp
      omega
    obtain ⟨k, rfl⟩ : ∃ j, k = j + 1 := ⟨k - 1, by omega⟩
    refine succeeds_commaSeparated_more
      ((hread e (by simp)).exprNested_delimited hus hs rfl hn) ?_
    intro e' t he'
    have hadv := advance_of_kinds he'.2
    have hlen' : t.advance.kinds.length = vs.length + rest.length + 1 := by
      rw [hadv]
      simp
      omega
    refine ⟨current_of_kinds he'.2, ?_⟩
    refine (ih (fun a ha => hread a (List.mem_cons_of_mem _ ha)) hall hadv (by omega)
      (by omega)).imp ?_
    intro es' u hes'
    refine ⟨?_, hes'.2⟩
    rw [bareAll, he'.1, hes'.1]
    rfl

/-- The token that a tree begins with, or the comma behind a missing one, is no closing
sign. -/
theorem current_ne_of_spells {e : Expr} (hwf : e.WellFormed) {us next : List Token}
    (hus : e.Spells us) {s : TokenStream} (hs : s.kinds = us ++ next)
    (hnext : e.isMissing = true → next.headD .eof = .symbol .comma) {close : Token}
    (hopens : close.opens = false) (hcomma : close ≠ .symbol .comma) :
    s.current.token ≠ close := by
  rcases nil_or_opens_of_spells hwf hus with ⟨rfl, hmissing⟩ | ⟨first, us, rfl, hfirst⟩
  · rw [current_token, hs, List.nil_append, hnext hmissing]
    exact hcomma.symm
  · rw [List.cons_append] at hs
    rw [current_of_kinds hs]
    rintro rfl
    rw [hfirst] at hopens
    cases hopens

/-- The token that trees begin with, or a comma between them, is no closing sign. -/
theorem current_ne_close {e : Expr} {es : List Expr} (hwf : e.WellFormed)
    (hlone : loneMissing (e :: es) = false) {ts rest : List Token} (hts : SpellsAll (e :: es) ts)
    {s : TokenStream} (hs : s.kinds = ts ++ rest) {close : Token}
    (hopens : close.opens = false) (hcomma : close ≠ .symbol .comma) :
    s.current.token ≠ close := by
  obtain ⟨us, vs, hus, hvs, rfl⟩ := hts
  rw [List.append_assoc] at hs
  refine current_ne_of_spells hwf hus hs (fun hmissing => ?_) hopens hcomma
  cases es with
  | nil =>
    have : e.isMissing = false := hlone
    rw [hmissing] at this
    cases this
  | cons second others =>
    obtain ⟨vs, rfl, -⟩ := spellsAll_of_spellsRest hvs
    rfl

theorem succeeds_arguments {n k : Nat} {close : Symbol}
    (hclose : close = .rParen ∨ close = .rBracket) {args : List Expr}
    (hread : ∀ a ∈ args, a.Readable) (hwf : ∀ a ∈ args, a.WellFormed)
    (hlone : loneMissing args = false) {s : TokenStream} {ts rest : List Token}
    (hts : SpellsAll args ts) (hs : s.kinds = ts ++ .symbol close :: rest)
    (hn : s.kinds.length ≤ n) (hk : s.kinds.length ≤ k) :
    Succeeds (arguments (exprNested n) k close s) (AllReadAs args rest) := by
  rw [arguments, accept_bind]
  cases args with
  | nil =>
    obtain rfl : ts = [] := hts
    rw [if_pos (current_of_kinds hs)]
    exact succeeds_pure ⟨rfl, advance_of_kinds hs⟩
  | cons e es =>
    have hdelimits : (Token.symbol close).delimits = true := by
      rcases hclose with rfl | rfl <;> rfl
    have hcomma : Token.symbol close ≠ .symbol .comma := by
      rcases hclose with rfl | rfl <;> simp
    have hopens : (Token.symbol close).opens = false := by
      rcases hclose with rfl | rfl <;> rfl
    rw [if_neg (current_ne_close (hwf e (by simp)) hlone hts hs hopens hcomma)]
    refine (succeeds_commaSeparated hdelimits hcomma hread hts hs hn hk).bind ?_
    intro es' t hes'
    exact succeeds_expect_bind hes'.2 (succeeds_pure ⟨hes'.1, advance_of_kinds hes'.2⟩)

/-- The tokens of elements and of the brace behind them, element by element.  The elements
may end behind a comma; only a last element that is there can do without it. -/
inductive SpellsElements (rest : List Token) : List Expr → List Token → Prop
  | none : SpellsElements rest [] (.symbol .rBrace :: rest)
  | last {e : Expr} {us : List Token} (hus : e.Spells us) (hthere : e.isMissing = false) :
      SpellsElements rest [e] (us ++ .symbol .rBrace :: rest)
  | more {e : Expr} {es : List Expr} {us ts : List Token} (hus : e.Spells us)
      (hts : SpellsElements rest es ts) :
      SpellsElements rest (e :: es) (us ++ .symbol .comma :: ts)

theorem spellsElements_of_spellsAll {rest tail : List Token} :
    ∀ {es : List Expr} {ts : List Token}, SpellsAll es ts →
      ((tail = .symbol .rBrace :: rest ∧ ∀ last ∈ es.getLast?, last.isMissing = false) ∨
        (tail = .symbol .comma :: .symbol .rBrace :: rest ∧ es ≠ [])) →
      SpellsElements rest es (ts ++ tail) := by
  intro es
  induction es with
  | nil =>
    rintro ts rfl (⟨rfl, -⟩ | ⟨-, hne⟩)
    · exact .none
    · exact absurd rfl hne
  | cons e others ih =>
    rintro ts ⟨us, vs, hus, hvs, rfl⟩ htail
    rw [List.append_assoc]
    cases others with
    | nil =>
      obtain rfl : vs = [] := hvs
      rcases htail with ⟨rfl, hlast⟩ | ⟨rfl, -⟩
      · exact .last hus (hlast e rfl)
      · exact .more hus .none
    | cons second others =>
      obtain ⟨vs, rfl, hall⟩ := spellsAll_of_spellsRest hvs
      refine .more hus (ih hall ?_)
      rcases htail with ⟨rfl, hlast⟩ | ⟨rfl, -⟩
      · exact Or.inl ⟨rfl, by simpa using hlast⟩
      · exact Or.inr ⟨rfl, by simp⟩

/-- Elements are read up to the closing brace. -/
theorem succeeds_elements {n : Nat} {rest : List Token} {es : List Expr} {ts : List Token}
    (hts : SpellsElements rest es ts) :
    (∀ a ∈ es, a.Readable) → (∀ a ∈ es, a.WellFormed) → ∀ {k : Nat} {s : TokenStream},
      s.kinds = ts → s.kinds.length ≤ n → s.kinds.length ≤ k →
      Succeeds (elements (exprNested n) k s) (AllReadAs es (.symbol .rBrace :: rest)) := by
  induction hts with
  | none =>
    intro _ _ k s hs _ hk
    obtain ⟨k, rfl⟩ : ∃ j, k = j + 1 := ⟨k - 1, by rw [hs] at hk; simp at hk; omega⟩
    rw [elements_succ, current_of_kinds hs]
    exact ⟨[], s, rfl, rfl, hs⟩
  | @last e us hus hthere =>
    intro hread hwf k s hs hn hk
    obtain ⟨k, rfl⟩ : ∃ j, k = j + 1 := ⟨k - 1, by rw [hs] at hk; simp at hk; omega⟩
    have hopen : e.isMissing = true → (Token.symbol .rBrace :: rest).headD .eof = .symbol .comma :=
      fun hmissing => by rw [hthere] at hmissing; cases hmissing
    refine succeeds_elements_last
      (current_ne_of_spells (hwf e (by simp)) hus hs hopen rfl (by simp))
      (current_ne_of_spells (hwf e (by simp)) hus hs hopen rfl (by simp))
      ((hread e (by simp)).exprNested_delimited hus hs rfl hn) fun e' t he' => ?_
    refine ⟨?_, ?_, he'.2⟩
    · rw [current_of_kinds he'.2]
      simp
    · simp only [bareAll, he'.1]
  | @more e es us ts hus _ ih =>
    intro hread hwf k s hs hn hk
    have hlen : s.kinds.length = us.length + (ts.length + 1) := by
      rw [hs, List.length_append, List.length_cons]
    obtain ⟨k, rfl⟩ : ∃ j, k = j + 1 := ⟨k - 1, by omega⟩
    refine succeeds_elements_more
      (current_ne_of_spells (hwf e (by simp)) hus hs (fun _ => rfl) rfl (by simp))
      (current_ne_of_spells (hwf e (by simp)) hus hs (fun _ => rfl) rfl (by simp))
      ((hread e (by simp)).exprNested_delimited hus hs rfl hn) fun e' t he' => ?_
    have hadv := advance_of_kinds he'.2
    refine ⟨current_of_kinds he'.2, ?_⟩
    refine (ih (fun a ha => hread a (List.mem_cons_of_mem _ ha))
      (fun a ha => hwf a (List.mem_cons_of_mem _ ha)) hadv (by rw [hadv]; omega)
      (by rw [hadv]; omega)).imp fun es' u hes' => ?_
    refine ⟨?_, hes'.2⟩
    rw [bareAll, he'.1, hes'.1]
    rfl

/-! ### Operands -/

theorem primary_missing {inner : Parser Expr} {n : Nat} {s : TokenStream}
    (h : s.current.token.endsOperand = true) :
    primary inner n s = .ok (.missing ⟨s.nextId, s.current.pos⟩) s.numbered := by
  rw [primary_apply]
  generalize s.current.token = first at h
  unfold Token.endsOperand at h
  split at h <;> first | rfl | cases h

theorem primary_literal {inner : Parser Expr} {n : Nat} {s : TokenStream} {value : Literal}
    (h : s.current.token = value.token) :
    primary inner n s = .ok (.literal ⟨s.nextId, s.current.pos⟩ value) s.advance.numbered := by
  rw [primary_apply, h]
  cases value <;> rfl

theorem operandRead_missing {m : Mark} : (missing m).OperandRead := by
  intro n s rest R hstands hn hgo
  obtain ⟨ts, rfl, hs⟩ := hstands.spelled
  rw [List.nil_append] at hs
  have hends : s.current.token.endsOperand = true := by
    rw [current_token, hs]
    exact hstands.ends rfl
  rw [operandNested, bind_of_ok (primary_missing hends)]
  exact hgo ⟨rfl, hs⟩ (by rw [← hs]; exact hn)

theorem operandRead_literal {m : Mark} {value : Literal} : (literal m value).OperandRead := by
  intro n s rest R hstands hn hgo
  obtain ⟨ts, rfl, hs⟩ := hstands.spelled
  rw [List.singleton_append] at hs
  rw [operandNested, bind_of_ok (primary_literal (current_of_kinds hs))]
  exact hgo ⟨rfl, advance_of_kinds hs⟩ (by rw [hs] at hn; simp at hn; omega)

theorem operandRead_ident {m : Mark} {name : String} : (ident m name).OperandRead := by
  intro n s rest R hstands hn hgo
  obtain ⟨ts, rfl, hs⟩ := hstands.spelled
  rw [List.singleton_append] at hs
  have hprimary : primary (Parser.exprNested n) n s
      = .ok (.ident ⟨s.nextId, s.current.pos⟩ name) s.advance.numbered := by
    rw [primary_apply, current_of_kinds hs]
  rw [operandNested, bind_of_ok hprimary]
  exact hgo ⟨rfl, advance_of_kinds hs⟩ (by rw [hs] at hn; simp at hn; omega)

theorem operandRead_paren {m : Mark} {inner : Expr} (h : inner.Readable) :
    (paren m inner).OperandRead := by
  intro n s rest R hstands hn hgo
  obtain ⟨ts, ⟨us, hus, rfl⟩, hs⟩ := hstands.spelled
  rw [List.cons_append, List.append_assoc, List.singleton_append] at hs
  have hadv := advance_of_kinds hs
  have hlen : s.kinds.length = s.advance.kinds.length + 1 := by
    rw [hadv, hs]
    rfl
  have hlen' : s.advance.kinds.length = us.length + rest.length + 1 := by
    rw [hadv]
    simp
    omega
  rw [operandNested]
  refine Succeeds.bind (Q := (paren m inner).ReadAs rest) ?_ ?_
  · rw [primary_apply, current_of_kinds hs]
    refine (h.exprNested_delimited hus hadv rfl (by omega)).bind ?_
    intro inner' t hinner
    refine succeeds_expect_bind hinner.2 ?_
    rw [markAt_bind]
    refine succeeds_pure ⟨?_, advance_of_kinds hinner.2⟩
    rw [bare, bare, hinner.1]
  · intro e' t hread
    exact hgo hread (by omega)

theorem endsMissing_eq_isMissing {e : Expr} (h : e.rank = 7) : e.endsMissing = e.isMissing := by
  cases e with
  | unary m op operand => cases h
  | binary m op left right =>
    have := op.rank_lt
    have : op.rank = 7 := h
    omega
  | _ => rfl

/-- A tree that suffixes can follow stands in front of the first token of a suffix. -/
theorem stands_of_suffix {e : Expr} (hrank : e.rank = 7) (hmissing : e.isMissing = false)
    {ts rest : List Token} (hts : e.Spells ts) {s : TokenStream} (hs : s.kinds = ts ++ rest)
    (hnext : (rest.headD .eof).startsSuffix = true) : e.Stands s rest := by
  refine ⟨⟨ts, hts, hs⟩, fun hends => ?_, fun hbrace => ?_⟩
  · rw [endsMissing_eq_isMissing hrank, hmissing] at hends
    cases hends
  · rw [hbrace] at hnext
    cases hnext

theorem operandRead_member {m : Mark} {receiver : Expr} {name : String}
    (hformed : (member m receiver name).Formed) (h : receiver.OperandRead) :
    (member m receiver name).OperandRead := by
  intro n s rest R hstands hn hgo
  obtain ⟨ts, ⟨us, hus, rfl⟩, hs⟩ := hstands.spelled
  rw [List.append_assoc, List.cons_append, List.singleton_append] at hs
  refine h (stands_of_suffix hformed.1 hformed.2 hus hs rfl) hn ?_
  intro receiver' t k hread hk
  have hadv := advance_of_kinds hread.2
  obtain ⟨k, rfl⟩ : ∃ j, k = j + 1 := ⟨k - 1, by simp at hk; omega⟩
  rw [suffixes_succ, current_of_kinds hread.2]
  refine succeeds_name_bind hadv ?_
  rw [markAt_bind]
  refine hgo ⟨?_, advance_of_kinds hadv⟩ (by simp at hk; omega)
  rw [bare, bare, hread.1]

/-- A bracket with arguments behind a tree is read as a suffix of it; the kind of bracket tells
what is built. -/
theorem succeeds_bracketSuffix {opening close : Symbol} {build : Mark → Expr → List Expr → Expr}
    (hopening : (Token.symbol opening).startsSuffix = true)
    (hclose : close = .rParen ∨ close = .rBracket)
    (hstep : ∀ {n k head s}, s.current.token = .symbol opening →
      suffixes (Parser.exprNested n) (k + 1) head s = (do
        let args ← arguments (Parser.exprNested n) k close
        suffixes (Parser.exprNested n) k (build (← markAt head.pos) head args)) s.advance)
    (hbare : ∀ {m m' head head' args args'}, bare head' = bare head →
      bareAll args' = bareAll args → (build m' head' args').bare = (build m head args).bare)
    {m : Mark} {head : Expr} {args : List Expr} (hrank : head.rank = 7)
    (hpresent : head.isMissing = false) (h : head.OperandRead) (hread : ∀ a ∈ args, a.Readable)
    (hwf : ∀ a ∈ args, a.WellFormed) (hlone : loneMissing args = false) {n : Nat}
    {s : TokenStream} {us vs rest : List Token} {R : Expr → TokenStream → Prop}
    (hus : head.Spells us) (hvs : SpellsAll args vs)
    (hs : s.kinds = us ++ .symbol opening :: (vs ++ .symbol close :: rest))
    (hn : s.kinds.length ≤ n + 1)
    (hgo : ∀ ⦃e' t k⦄, (build m head args).ReadAs rest e' t → rest.length ≤ k →
      Succeeds (suffixes (Parser.exprNested n) k e' t) R) :
    Succeeds (operandNested n s) R := by
  have hlen : s.kinds.length = us.length + (vs.length + rest.length + 2) := by
    rw [hs]
    simp
    omega
  refine h (stands_of_suffix hrank hpresent hus hs hopening) hn ?_
  intro head' t k hhead hk
  have hadv := advance_of_kinds hhead.2
  have hlen' : t.advance.kinds.length = vs.length + rest.length + 1 := by
    rw [hadv]
    simp
    omega
  obtain ⟨k, rfl⟩ : ∃ j, k = j + 1 := ⟨k - 1, by simp at hk; omega⟩
  simp at hk
  rw [hstep (current_of_kinds hhead.2)]
  refine (succeeds_arguments hclose hread hwf hlone hvs hadv (by omega) (by omega)).bind ?_
  intro args' u hargs
  rw [markAt_bind]
  exact hgo ⟨hbare hhead.1 hargs.1, hargs.2⟩ (by omega)

theorem operandRead_call {m : Mark} {callee : Expr} {args : List Expr}
    (hformed : (call m callee args).Formed) (h : callee.OperandRead)
    (hread : ∀ a ∈ args, a.Readable) (hwf : ∀ a ∈ args, a.WellFormed) :
    (call m callee args).OperandRead := by
  intro n s rest R hstands hn hgo
  obtain ⟨ts, ⟨us, vs, hus, hvs, rfl⟩, hs⟩ := hstands.spelled
  refine succeeds_bracketSuffix rfl (Or.inl rfl) ?_ ?_ hformed.1 hformed.2.1 h hread hwf hformed.2.2
    hus hvs (by simpa using hs) hn hgo
  · intro n k head s hopen
    rw [suffixes_succ, hopen]
  · intro m m' head head' args args' hhead hargs
    rw [bare, bare, hhead, hargs]

/-- The bracket of an element access opens a suffix behind its receiver, and a primary
expression where the receiver is missing. -/
theorem operandRead_index {m : Mark} {receiver : Expr} {args : List Expr}
    (hformed : (index m receiver args).Formed) (h : receiver.OperandRead)
    (hread : ∀ a ∈ args, a.Readable) (hwf : ∀ a ∈ args, a.WellFormed) :
    (index m receiver args).OperandRead := by
  intro n s rest R hstands hn hgo
  obtain ⟨ts, ⟨us, vs, hus, hvs, rfl⟩, hs⟩ := hstands.spelled
  rw [List.append_assoc, List.cons_append, List.append_assoc, List.singleton_append] at hs
  by_cases hmissing : receiver.isMissing = true
  · cases receiver with
    | missing m' =>
      obtain rfl : us = [] := hus
      rw [List.nil_append] at hs
      have hadv : s.numbered.advance.kinds = vs ++ .symbol .rBracket :: rest :=
        advance_of_kinds hs
      have hlen : s.kinds.length = s.numbered.advance.kinds.length + 1 := by
        rw [hadv, hs]
        rfl
      have hlen' : s.numbered.advance.kinds.length = vs.length + rest.length + 1 := by
        rw [hadv]
        simp
        omega
      rw [operandNested]
      refine Succeeds.bind (Q := (index m (missing m') args).ReadAs rest) ?_ ?_
      · rw [primary_apply, current_of_kinds hs]
        refine (succeeds_arguments (Or.inr rfl) hread hwf hformed.2 hvs hadv (by omega)
          (by omega)).bind ?_
        intro args' u hargs
        rw [markAt_bind]
        refine succeeds_pure ⟨?_, hargs.2⟩
        rw [bare, bare, bare, bare, hargs.1]
      · intro e' t hread'
        exact hgo hread' (by omega)
    | _ => cases hmissing
  · refine succeeds_bracketSuffix rfl (Or.inr rfl) ?_ ?_ hformed.1 (by simpa using hmissing) h hread
      hwf hformed.2 hus hvs hs hn hgo
    · intro n k head s hopen
      rw [suffixes_succ, hopen]
    · intro m m' head head' args args' hhead hargs
      rw [bare, bare, hhead, hargs]

/-! ### Constructions -/

/-- One part of a construction was read up to marks, and `rest` is left. -/
def PartReadAs (part : Option (List Expr)) (rest : List Token) (part' : Option (List Expr))
    (t : TokenStream) : Prop :=
  barePart part' = barePart part ∧ t.kinds = rest

theorem PartReadAs.isNone_eq {part part' : Option (List Expr)} {rest : List Token}
    {t : TokenStream} (h : PartReadAs part rest part' t) : part'.isNone = part.isNone := by
  have := congrArg Option.isNone h.1
  simpa [barePart_eq] using this

theorem succeeds_constructionArguments {n : Nat} {args : Option (List Expr)}
    (hread : ∀ a ∈ args.getD [], a.Readable) (hwf : ∀ a ∈ args.getD [], a.WellFormed)
    (hlone : loneMissing (args.getD []) = false) {s : TokenStream} {ts rest : List Token}
    (hts : SpellsArguments args ts) (hs : s.kinds = ts ++ rest) (hn : s.kinds.length ≤ n)
    (hnext : args = none → rest.headD .eof ≠ .symbol .lParen) :
    Succeeds (constructionArguments (Parser.exprNested n) n s) (PartReadAs args rest) := by
  rw [constructionArguments, accept_bind]
  cases args with
  | none =>
    obtain rfl : ts = [] := hts
    rw [List.nil_append] at hs
    rw [if_neg (by rw [current_token, hs]; exact hnext rfl)]
    exact succeeds_pure ⟨rfl, hs⟩
  | some es =>
    obtain ⟨us, hus, rfl⟩ := hts
    rw [List.cons_append, List.append_assoc, List.singleton_append] at hs
    have hadv := advance_of_kinds hs
    have hlen : s.kinds.length = s.advance.kinds.length + 1 := by
      rw [hadv, hs]
      rfl
    rw [if_pos (current_of_kinds hs)]
    refine (succeeds_arguments (Or.inl rfl) hread hwf hlone hus hadv (by omega) (by omega)).bind ?_
    intro es' t hes'
    refine succeeds_pure ⟨?_, hes'.2⟩
    exact congrArg some hes'.1

theorem succeeds_constructionInitializer {n : Nat} {init : Option (List Expr)}
    (hread : ∀ a ∈ init.getD [], a.Readable) (hwf : ∀ a ∈ init.getD [], a.WellFormed)
    {s : TokenStream} {ts rest : List Token} (hts : SpellsInitializer init ts)
    (hs : s.kinds = ts ++ rest) (hn : s.kinds.length ≤ n)
    (hnext : init = none → rest.headD .eof ≠ .symbol .lBrace) :
    Succeeds (constructionInitializer (Parser.exprNested n) n s) (PartReadAs init rest) := by
  rw [constructionInitializer, accept_bind]
  cases init with
  | none =>
    obtain rfl : ts = [] := hts
    rw [List.nil_append] at hs
    rw [if_neg (by rw [current_token, hs]; exact hnext rfl)]
    exact succeeds_pure ⟨rfl, hs⟩
  | some es =>
    obtain ⟨us, hus, htail⟩ := hts
    -- With or without the last comma, the tokens go on with the elements and the brace.
    obtain ⟨vs, hs, hvs⟩ : ∃ vs, s.kinds = .symbol .lBrace :: vs ∧ SpellsElements rest es vs := by
      rcases htail with ⟨rfl, hlast⟩ | ⟨rfl, hne⟩
      · exact ⟨_, by simpa using hs, spellsElements_of_spellsAll hus (Or.inl ⟨rfl, hlast⟩)⟩
      · exact ⟨_, by simpa using hs, spellsElements_of_spellsAll hus (Or.inr ⟨rfl, hne⟩)⟩
    have hadv := advance_of_kinds hs
    have hlen : s.kinds.length = s.advance.kinds.length + 1 := by
      rw [hadv, hs]
      rfl
    rw [if_pos (current_of_kinds hs)]
    refine (succeeds_elements hvs hread hwf hadv (by omega) (by omega)).bind ?_
    intro es' t hes'
    refine succeeds_expect_bind hes'.2 (succeeds_pure ⟨?_, advance_of_kinds hes'.2⟩)
    exact congrArg some hes'.1

theorem operandRead_new {m : Mark} {ty : TypeExpr} {args init : Option (List Expr)}
    (hformed : (new m ty args init).Formed) (hres : ty.isResolved = true)
    (hread : ∀ a ∈ (new m ty args init).children, a.Readable)
    (hwf : ∀ a ∈ (new m ty args init).children, a.WellFormed) :
    (new m ty args init).OperandRead := by
  intro n s rest R hstands hn hgo
  obtain ⟨ts, ⟨us, vs, hus, hvs, rfl⟩, hs⟩ := hstands.spelled
  rw [List.cons_append, List.append_assoc, List.append_assoc] at hs
  have hadv := advance_of_kinds hs
  have hlen : s.kinds.length = s.advance.kinds.length + 1 := by
    rw [hadv, hs]
    rfl
  have hlen' : s.advance.kinds.length = ty.tokens.length + (us.length + (vs ++ rest).length) := by
    rw [hadv, List.length_append, List.length_append]
  -- Behind the type stands the parenthesis of the arguments or the brace.
  have hinit : args = none → (vs ++ rest).headD .eof = .symbol .lBrace := by
    rintro rfl
    cases init with
    | none => simp [Formed] at hformed
    | some es =>
      obtain ⟨ws, -, ⟨rfl, -⟩ | ⟨rfl, -⟩⟩ := hvs <;> rfl
  have hnext : (us ++ (vs ++ rest)).headD .eof = .symbol .lParen ∨
      (us ++ (vs ++ rest)).headD .eof = .symbol .lBrace := by
    cases args with
    | none =>
      obtain rfl : us = [] := hus
      exact Or.inr (hinit rfl)
    | some es =>
      obtain ⟨ws, -, rfl⟩ := hus
      exact Or.inl rfl
  rw [operandNested]
  refine Succeeds.bind (Q := (new m ty args init).ReadAs rest) ?_ ?_
  · rw [primary_apply, current_of_kinds hs]
    simp only [construction_apply]
    refine Succeeds.bind (type_of_tokens hres hadv ?_ ?_) ?_
    · rcases hnext with h | h <;> rw [h] <;> simp
    · rcases hnext with h | h <;> rw [h] <;> simp
    rintro ty' t ⟨rfl, ht⟩
    have hlent : t.kinds.length = us.length + (vs ++ rest).length := by
      rw [ht, List.length_append]
    refine (succeeds_constructionArguments (fun a ha => hread a (by simp [children, ha]))
      (fun a ha => hwf a (by simp [children, ha])) hformed.2 hus ht (by omega) ?_).bind ?_
    · intro hnone
      rw [hinit hnone]
      simp
    intro args' u hargs
    have hlenu : u.kinds.length = (vs ++ rest).length := by
      rw [hargs.2]
    refine (succeeds_constructionInitializer (fun a ha => hread a (by simp [children, ha]))
      (fun a ha => hwf a (by simp [children, ha])) hvs hargs.2 (by omega)
      (fun _ => hstands.brace)).bind ?_
    intro init' v hinit'
    rw [hargs.isNone_eq, hinit'.isNone_eq, if_neg, markAt_bind]
    · refine succeeds_pure ⟨?_, hinit'.2⟩
      rw [bare, bare, hargs.1, hinit'.1]
    · have := hformed.1
      cases args <;> cases init <;> simp_all
  · intro e' t hread'
    refine hgo hread' ?_
    have : rest.length ≤ (vs ++ rest).length := by simp
    omega

/-! ### Any tree -/

/-- A tree that some level or an operand reads is read at all looser places. -/
theorem Readable.of_operand {e : Expr} (hwf : e.WellFormed) (hrank : e.rank = 7)
    (h : e.OperandRead) : e.Readable := by
  have hsigned := SignedRead.of_operand hwf hrank h
  have hlevels : e.LevelsRead 6 := fun n s rest hstands hn hstops =>
    hsigned hstands hn hn hstops.1
  exact ⟨fun _ => h, fun _ => hsigned, fun hi _ => hlevels.down (Nat.le_refl 6) hi,
    fun hi _ => ChainRead.of_levels (hlevels.down (Nat.le_refl 6) hi)⟩

theorem Readable.of_signed {e : Expr} (hrank : e.rank = 6) (h : e.SignedRead) : e.Readable := by
  have hlevels : e.LevelsRead 6 := fun n s rest hstands hn hstops =>
    h hstands hn hn hstops.1
  refine ⟨fun hseven => by omega, fun _ => h, fun hi _ => hlevels.down (Nat.le_refl 6) hi,
    fun hi _ => ChainRead.of_levels (hlevels.down (Nat.le_refl 6) hi)⟩

theorem Readable.of_chain {e : Expr} (hrank : e.rank < 6) (h : e.ChainRead e.rank) :
    e.Readable := by
  have hlevels := LevelsRead.of_chain hrank h
  refine ⟨fun hseven => by omega, fun hsix => by omega, fun _ hi => hlevels.down (by omega) hi,
    fun {i} hlt hi => ?_⟩
  by_cases heq : i = e.rank
  · rw [heq]
    exact h
  · exact ChainRead.of_levels (hlevels.down (by omega) (by omega))

/-- **A well-formed tree whose types are known is read wherever it stands.** -/
theorem readable {e : Expr} : e.WellFormed → e.Resolved → e.Readable := by
  induction e using children_induction with
  | step e ih =>
    intro hwf hres
    have hparts : ∀ c ∈ e.children, c.Readable := fun c hc =>
      ih c hc (hwf.child hc) ((resolved_iff.mp hres).2 c hc)
    have hwfs : ∀ c ∈ e.children, c.WellFormed := fun c hc => hwf.child hc
    cases e with
    | missing m => exact .of_operand hwf rfl operandRead_missing
    | literal m value => exact .of_operand hwf rfl operandRead_literal
    | ident m name => exact .of_operand hwf rfl operandRead_ident
    | paren m inner => exact .of_operand hwf rfl (operandRead_paren (hparts inner (by simp [children])))
    | unary m op operand =>
      have hoperand := hparts operand (by simp [children])
      exact .of_signed rfl (signedRead_unary (hoperand.signed hwf.formed))
    | binary m op left right =>
      have hleft := hparts left (by simp [children])
      have hright := hparts right (by simp [children])
      have hlt := op.rank_lt
      refine .of_chain hlt (chainRead_binary hwf.formed ?_ ?_)
      · exact hleft.chain hlt hwf.formed.1
      · exact hright.levels (by omega) hwf.formed.2.1
    | member m receiver name =>
      have hreceiver := hparts receiver (by simp [children])
      exact .of_operand hwf rfl
        (operandRead_member hwf.formed (hreceiver.operand hwf.formed.1))
    | call m callee args =>
      have hcallee := hparts callee (by simp [children])
      exact .of_operand hwf rfl (operandRead_call hwf.formed (hcallee.operand hwf.formed.1)
        (fun a ha => hparts a (by simp [children, ha])) fun a ha => hwfs a (by simp [children, ha]))
    | index m receiver args =>
      have hreceiver := hparts receiver (by simp [children])
      exact .of_operand hwf rfl (operandRead_index hwf.formed (hreceiver.operand hwf.formed.1)
        (fun a ha => hparts a (by simp [children, ha])) fun a ha => hwfs a (by simp [children, ha]))
    | new m ty args init =>
      exact .of_operand hwf rfl
        (operandRead_new hwf.formed (resolved_iff.mp hres).1 hparts hwfs)

/-- Such a tree is read as a whole expression in front of anything that no operator and no
suffix begins. -/
theorem succeeds_expr {e : Expr} (hwf : e.WellFormed) (hres : e.Resolved) {s : TokenStream}
    {rest : List Token} (hstands : e.Stands s rest) (hstops : (rest.headD .eof).Stops 0) :
    Succeeds (Parser.expr s) (e.ReadAs rest) := by
  rw [Parser.expr, remaining_bind]
  exact (readable hwf hres).exprNested hstands (by simp) hstops

end Expr

end ListSugar
