/-
Reading statements and programs.

Both directions are here.  What the parser reads spans the tokens it used up, and the
tokens of a well-formed statement are read as that statement, up to marks and lines,
wherever no `else` follows an open choice.  The bound on nesting is never below the
number of unread tokens, so it plays no part in what is read.
-/
import ListSugar.Program.Parser
import ListSugar.Proofs.Grammar.Reading
import ListSugar.Proofs.Grammar.Spelled
import ListSugar.Proofs.Grammar.Statements

namespace ListSugar

namespace Parser

open TokenStream

/-! ### What the parser reads spans its tokens -/

theorem simpleStmt_spans {s t : TokenStream} {st : Stmt} (hun : Stmt.Undeclared s)
    (h : simpleStmt s = .ok st t) : st.Spans s t := by
  obtain ⟨head, u, hhead, h⟩ := bind_eq_ok_iff.mp h
  have hspan := expr_spans hhead
  rw [accept_bind] at h
  split at h
  · next hassign =>
    obtain ⟨value, v, hvalue, h⟩ := bind_eq_ok_iff.mp h
    obtain ⟨_, w, hexpect, h⟩ := bind_eq_ok_iff.mp h
    obtain ⟨hsemi, rfl⟩ := expect_eq_ok_iff.mp hexpect
    obtain ⟨rfl, rfl⟩ := pure_eq_ok_iff.mp h
    exact ⟨hun, u, v, hspan, hassign, expr_spans hvalue, hsemi, rfl⟩
  · obtain ⟨_, w, hexpect, h⟩ := bind_eq_ok_iff.mp h
    obtain ⟨hsemi, rfl⟩ := expect_eq_ok_iff.mp hexpect
    obtain ⟨rfl, rfl⟩ := pure_eq_ok_iff.mp h
    exact ⟨hun, u, hspan, hsemi, rfl⟩

theorem varStmt_spans {s t : TokenStream} {st : Stmt} (hvar : s.current.token = .keyword .var)
    (h : varStmt s.current.pos.line s.advance = .ok st t) : st.Spans s t := by
  obtain ⟨declared, u, hread, h⟩ := bind_eq_ok_iff.mp h
  obtain ⟨hname, rfl⟩ := name_eq_ok_iff.mp hread
  rw [accept_bind] at h
  split at h
  · next hassign =>
    obtain ⟨init, v, hinit, h⟩ := bind_eq_ok_iff.mp h
    obtain ⟨_, w, hexpect, h⟩ := bind_eq_ok_iff.mp h
    obtain ⟨hsemi, rfl⟩ := expect_eq_ok_iff.mp hexpect
    obtain ⟨rfl, rfl⟩ := pure_eq_ok_iff.mp h
    exact ⟨fun _ => rfl, rfl, s.advance, v, ⟨hvar, rfl⟩, hname, ⟨hassign, expr_spans hinit⟩,
      hsemi, rfl⟩
  · obtain ⟨_, u, hfail, -⟩ := bind_eq_ok_iff.mp h
    exact absurd hfail fail_ne_ok

theorem typedStmt_apply (ty : TypeExpr) (declared : String) (line : Nat) (s : TokenStream) :
    typedStmt ty declared line s =
      if s.current.token = .symbol .assign then (do
        let init ← expr
        expect (.symbol .semi)
        return Stmt.declare (some ty) declared (some init) line) s.advance
      else (do
        expect (.symbol .semi)
        return Stmt.declare (some ty) declared none line) s := by
  rw [typedStmt, accept_bind]
  split
  · rw [if_pos rfl, map_eq_pure_bind, bind_assoc]
    rfl
  · rw [if_neg (by simp), pure_bind]

theorem typedStmt_spans {s u t : TokenStream} {ty : TypeExpr} {declared : String} {st : Stmt}
    (hdecl : Declares ty declared s u)
    (h : typedStmt ty declared s.current.pos.line u = .ok st t) : st.Spans s t := by
  obtain ⟨v, hty, hname, rfl, -⟩ := hdecl
  rw [typedStmt_apply] at h
  split at h
  · next hassign =>
    obtain ⟨init, w, hinit, h⟩ := bind_eq_ok_iff.mp h
    obtain ⟨_, x, hexpect, h⟩ := bind_eq_ok_iff.mp h
    obtain ⟨hsemi, rfl⟩ := expect_eq_ok_iff.mp hexpect
    obtain ⟨rfl, rfl⟩ := pure_eq_ok_iff.mp h
    exact ⟨by simp, rfl, v, w, hty, hname, ⟨hassign, expr_spans hinit⟩, hsemi, rfl⟩
  · obtain ⟨_, x, hexpect, h⟩ := bind_eq_ok_iff.mp h
    obtain ⟨hsemi, rfl⟩ := expect_eq_ok_iff.mp hexpect
    obtain ⟨rfl, rfl⟩ := pure_eq_ok_iff.mp h
    exact ⟨by simp, rfl, v, v.advance, hty, hname, rfl, hsemi, rfl⟩

theorem blockItems_succ (stmt : Parser Stmt) (n : Nat) (s : TokenStream) :
    blockItems stmt (n + 1) s =
      if s.current.token = .symbol .rBrace then .ok [] s.advance
      else if s.current.token = .eof then (fail .openBlock : Parser (List Stmt)) s
      else (do
        let first ← stmt
        return first :: (← blockItems stmt n)) s := by
  rw [blockItems, accept_bind]
  split
  · rfl
  · rw [if_neg (by simp)]
    simp only [token_bind]
    split <;> rfl

theorem branchStmt_apply (stmt : Parser Stmt) (s : TokenStream) :
    branchStmt stmt s = (do
      expect (.symbol .lParen)
      let cond ← expr
      expect (.symbol .rParen)
      let thenBranch ← stmt
      if (← token) = Token.keyword .else_ then
        skip
        let other ← stmt
        return Stmt.branch cond thenBranch (some other)
      else return Stmt.branch cond thenBranch none) s := rfl

theorem stmtNested_succ (n : Nat) (s : TokenStream) :
    stmtNested (n + 1) s = match s.current.token with
      | .symbol .lBrace => (do return Stmt.block (← blockItems (stmtNested n) n)) s.advance
      | .keyword .if_ => branchStmt (stmtNested n) s.advance
      | .keyword .foreach => foreachStmt (stmtNested n) s.advance
      | .keyword .var => varStmt s.current.pos.line s.advance
      | .ident _ => (do
          match ← declarator with
          | some (ty, declared) => typedStmt ty declared s.current.pos.line
          | none => simpleStmt) s
      | _ => simpleStmt s := by
  rw [stmtNested, place_bind, token_bind]
  cases s.current.token with
  | symbol sign => cases sign <;> rfl
  | keyword word => cases word <;> rfl
  | _ => rfl

theorem stmtsToEnd_succ (n : Nat) (s : TokenStream) :
    stmtsToEnd (n + 1) s =
      if s.current.token = .eof then .ok [] s
      else (do
        let first ← stmt
        return first :: (← stmtsToEnd n)) s := by
  rw [stmtsToEnd, token_bind]
  split <;> rfl

/-- A parser that reads statements from at most `k` tokens. -/
def ReadsStmts (stmt : Parser Stmt) (k : Nat) : Prop :=
  ∀ ⦃s t st⦄, s.kinds.length ≤ k → stmt s = .ok st t → st.Spans s t

theorem blockItems_spans {stmt : Parser Stmt} {k : Nat} (hstmt : ReadsStmts stmt k) :
    ∀ {n : Nat} {s t : TokenStream} {stmts : List Stmt}, s.kinds.length ≤ k →
      blockItems stmt n s = .ok stmts t →
      ∃ u, Stmt.SpansAll stmts s u ∧ u.current.token = .symbol .rBrace ∧ t = u.advance := by
  intro n
  induction n with
  | zero =>
    intro s t stmts _ h
    exact absurd h fail_ne_ok
  | succ n ih =>
    intro s t stmts hk h
    rw [blockItems_succ] at h
    split at h
    · next hbrace =>
      cases h
      exact ⟨s, rfl, hbrace, rfl⟩
    split at h
    · exact absurd h fail_ne_ok
    · obtain ⟨first, u, hfirst, h⟩ := bind_eq_ok_iff.mp h
      obtain ⟨rest, v, hrest, h⟩ := bind_eq_ok_iff.mp h
      obtain ⟨rfl, rfl⟩ := pure_eq_ok_iff.mp h
      have hspan := hstmt hk hfirst
      have hlen := hspan.length_le
      obtain ⟨w, hall, hclose, rfl⟩ := ih (by omega) hrest
      exact ⟨w, ⟨u, hspan, hall⟩, hclose, rfl⟩

theorem branchStmt_spans {stmt : Parser Stmt} {k : Nat} (hstmt : ReadsStmts stmt k)
    {s t : TokenStream} {st : Stmt} (hif : s.current.token = .keyword .if_)
    (hk : s.advance.kinds.length ≤ k) (h : branchStmt stmt s.advance = .ok st t) :
    st.Spans s t := by
  rw [branchStmt_apply] at h
  obtain ⟨_, s₁, hexpect, h⟩ := bind_eq_ok_iff.mp h
  obtain ⟨hopen, rfl⟩ := expect_eq_ok_iff.mp hexpect
  obtain ⟨cond, s₂, hcond, h⟩ := bind_eq_ok_iff.mp h
  obtain ⟨_, s₃, hexpect, h⟩ := bind_eq_ok_iff.mp h
  obtain ⟨hclose, rfl⟩ := expect_eq_ok_iff.mp hexpect
  obtain ⟨thenBranch, s₄, hthen, h⟩ := bind_eq_ok_iff.mp h
  have hcond := expr_spans hcond
  have hlen := hcond.length_le
  have hthen := hstmt (by simp at hlen hk ⊢; omega) hthen
  have hlen' := hthen.length_le
  rw [token_bind] at h
  split at h
  · next helse =>
    rw [skip_bind] at h
    obtain ⟨other, s₅, hother, h⟩ := bind_eq_ok_iff.mp h
    obtain ⟨rfl, rfl⟩ := pure_eq_ok_iff.mp h
    have hother := hstmt (by simp at hlen hlen' hk ⊢; omega) hother
    exact ⟨hif, hopen, s₂, s₄, hcond, hclose, hthen, helse, hother⟩
  · next helse =>
    obtain ⟨rfl, rfl⟩ := pure_eq_ok_iff.mp h
    exact ⟨hif, hopen, s₂, _, hcond, hclose, hthen, helse, rfl⟩

theorem loopVariable_spans {s t : TokenStream} {ty : Option TypeExpr} {declared : String}
    (h : loopVariable s = .ok (ty, declared) t) :
    ∃ u, Stmt.SpansDeclared ty s u ∧ u.current.token = .ident declared ∧ t = u.advance := by
  rw [loopVariable, token_bind] at h
  split at h
  · next hvar =>
    rw [skip_bind] at h
    obtain ⟨name, u, hread, h⟩ := bind_eq_ok_iff.mp h
    obtain ⟨hname, rfl⟩ := name_eq_ok_iff.mp hread
    obtain ⟨heq, rfl⟩ := pure_eq_ok_iff.mp h
    cases heq
    exact ⟨s.advance, ⟨hvar, rfl⟩, hname, rfl⟩
  · obtain ⟨d, u, hd, h⟩ := bind_eq_ok_iff.mp h
    cases d with
    | none => exact absurd h fail_ne_ok
    | some d =>
      obtain ⟨heq, rfl⟩ := pure_eq_ok_iff.mp h
      cases heq
      obtain ⟨v, hty, hname, rfl, -⟩ := declarator_some hd
      exact ⟨v, hty, hname, rfl⟩

theorem foreachStmt_spans {stmt : Parser Stmt} {k : Nat} (hstmt : ReadsStmts stmt k)
    {s t : TokenStream} {st : Stmt} (hforeach : s.current.token = .keyword .foreach)
    (hk : s.advance.kinds.length ≤ k) (h : foreachStmt stmt s.advance = .ok st t) :
    st.Spans s t := by
  obtain ⟨_, s₁, hexpect, h⟩ := bind_eq_ok_iff.mp h
  obtain ⟨hopen, rfl⟩ := expect_eq_ok_iff.mp hexpect
  obtain ⟨⟨ty, declared⟩, s₂, hvariable, h⟩ := bind_eq_ok_iff.mp h
  obtain ⟨u, hty, hname, rfl⟩ := loopVariable_spans hvariable
  obtain ⟨_, s₃, hexpect, h⟩ := bind_eq_ok_iff.mp h
  obtain ⟨hin, rfl⟩ := expect_eq_ok_iff.mp hexpect
  obtain ⟨iter, s₄, hiter, h⟩ := bind_eq_ok_iff.mp h
  obtain ⟨_, s₅, hexpect, h⟩ := bind_eq_ok_iff.mp h
  obtain ⟨hclose, rfl⟩ := expect_eq_ok_iff.mp hexpect
  obtain ⟨body, s₆, hbody, h⟩ := bind_eq_ok_iff.mp h
  obtain ⟨rfl, rfl⟩ := pure_eq_ok_iff.mp h
  have hiter := expr_spans hiter
  have hlen := hiter.length_le
  have hlen' := congrArg List.length hty.kinds
  have hbody := hstmt (by simp at hlen hlen' hk ⊢; omega) hbody
  exact ⟨hforeach, hopen, u, s₄, hty, hname, hin, hiter, hclose, hbody⟩

/-- Only a name begins a declaration. -/
theorem undeclared_of_current {s : TokenStream}
    (h : ∀ name, s.current.token ≠ .ident name) : Stmt.Undeclared s := by
  intro ty declared t hdecl
  obtain ⟨u, hty, -⟩ := id hdecl
  obtain ⟨name, rest, htokens⟩ := TypeExpr.tokens_eq_ident_cons hty.2
  have hkinds := hdecl.kinds
  rw [htokens] at hkinds
  exact h name (current_of_kinds hkinds)

/-- **A statement that is read spans the tokens it was read from.** -/
theorem stmtNested_spans : ∀ {n : Nat}, ReadsStmts (stmtNested n) n := by
  intro n
  induction n with
  | zero =>
    intro s t st hn h
    refine simpleStmt_spans (undeclared_of_current ?_) h
    intro name hname
    rw [current_token, List.length_eq_zero_iff.mp (Nat.le_zero.mp hn)] at hname
    cases hname
  | succ n ih =>
    intro s t st hn h
    have hadv : s.advance.kinds.length ≤ n := by
      simp
      omega
    rw [stmtNested_succ] at h
    split at h
    · next hopen =>
      obtain ⟨stmts, u, hitems, h⟩ := bind_eq_ok_iff.mp h
      obtain ⟨rfl, rfl⟩ := pure_eq_ok_iff.mp h
      exact ⟨hopen, blockItems_spans ih hadv hitems⟩
    · next hif => exact branchStmt_spans ih hif hadv h
    · next hforeach => exact foreachStmt_spans ih hforeach hadv h
    · next hvar => exact varStmt_spans hvar h
    · rcases declarator_ok s with ⟨ty, declared, u, hd⟩ | hnone
      · rw [bind_of_ok hd] at h
        exact typedStmt_spans (declarator_some hd) h
      · rw [bind_of_ok hnone] at h
        refine simpleStmt_spans (fun ty declared u hdecl => ?_) h
        obtain ⟨d, v, hd, rfl, -⟩ := declarator_of_declares hdecl
        rw [hnone] at hd
        cases hd
    · next hident =>
      exact simpleStmt_spans (undeclared_of_current hident) h

theorem stmtsToEnd_spans : ∀ {n : Nat} {s t : TokenStream} {stmts : List Stmt},
    stmtsToEnd n s = .ok stmts t → Stmt.SpansAll stmts s t := by
  intro n
  induction n with
  | zero =>
    intro s t stmts h
    obtain ⟨rfl, rfl⟩ := pure_eq_ok_iff.mp h
    rfl
  | succ n ih =>
    intro s t stmts h
    rw [stmtsToEnd_succ] at h
    split at h
    · cases h
      rfl
    · obtain ⟨first, u, hfirst, h⟩ := bind_eq_ok_iff.mp h
      obtain ⟨rest, v, hrest, h⟩ := bind_eq_ok_iff.mp h
      obtain ⟨rfl, rfl⟩ := pure_eq_ok_iff.mp h
      rw [stmt, remaining_bind] at hfirst
      exact ⟨u, stmtNested_spans (by simp) hfirst, ih hrest⟩

/-- **A program that is read spans the tokens it was read from.** -/
theorem program_spans {s t : TokenStream} {p : Program} (h : program s = .ok p t) :
    Stmt.SpansAll p.stmts s t ∧ p.nextId = t.nextId := by
  rw [program, remaining_bind] at h
  obtain ⟨stmts, u, hstmts, h⟩ := bind_eq_ok_iff.mp h
  rw [get_bind] at h
  obtain ⟨rfl, rfl⟩ := pure_eq_ok_iff.mp h
  exact ⟨stmtsToEnd_spans hstmts, rfl⟩

end Parser

namespace Stmt

open ListSugar.Parser TokenStream

/-! ### The tokens of a statement are read as the statement

The attempt to read a declaration comes first.  For a statement that begins with an
expression it has to be shown to fail, and it does, since such a statement does not look
like a declaration, neither within its tokens nor with the sign behind them.
-/

/-- The statement was read up to marks and lines, and `rest` is left. -/
def ReadAs (st : Stmt) (rest : List Token) (st' : Stmt) (t : TokenStream) : Prop :=
  st'.bare = st.bare ∧ t.kinds = rest

/-- Whether a token can be the first one of a statement. -/
def begins : Token → Bool
  | .symbol .semi => true
  | .symbol .lBrace => true
  | .keyword .if_ => true
  | .keyword .foreach => true
  | .keyword .var => true
  | t => t.opens

theorem begins_of_opens {t : Token} (h : t.opens = true) : begins t = true := by
  unfold begins
  split <;> first | rfl | exact h

/-- A tree whose last operand is there has a first token. -/
theorem opens_of_present {e : Expr} (hwf : e.WellFormed) (hends : e.endsMissing = false)
    {ts : List Token} (h : e.Spells ts) :
    ∃ first others, ts = first :: others ∧ first.opens = true := by
  rcases Expr.nil_or_opens_of_spells hwf h with ⟨-, hmissing⟩ | hfirst
  · rw [Expr.endsMissing_of_isMissing hmissing] at hends
    cases hends
  · exact hfirst

/-- The first token of a well-formed statement. -/
theorem begins_of_spells {st : Stmt} (hwf : st.WellFormed) {ts : List Token}
    (h : st.Spells ts) : ∃ first others, ts = first :: others ∧ begins first = true := by
  cases st with
  | declare ty name init line =>
    obtain ⟨us, -, rfl⟩ := h
    cases ty with
    | none => exact ⟨_, _, rfl, rfl⟩
    | some ty =>
      obtain ⟨head, more, htokens⟩ := TypeExpr.tokens_eq_ident_cons (hwf.1 ty rfl)
      rw [declaredTokens, htokens]
      exact ⟨_, _, rfl, rfl⟩
  | assign target value =>
    obtain ⟨us, vs, hus, -, rfl⟩ := h
    obtain ⟨first, us, rfl, hopens⟩ := opens_of_present hwf.1 hwf.2.2.1 hus
    exact ⟨_, _, rfl, begins_of_opens hopens⟩
  | expr value =>
    obtain ⟨us, hus, rfl⟩ := h
    rcases Expr.nil_or_opens_of_spells hwf.1 hus with ⟨rfl, -⟩ | ⟨first, us, rfl, hopens⟩
    · exact ⟨_, _, rfl, rfl⟩
    · exact ⟨_, _, rfl, begins_of_opens hopens⟩
  | block stmts =>
    obtain ⟨us, -, rfl⟩ := h
    exact ⟨_, _, rfl, rfl⟩
  | branch cond thenBranch elseBranch =>
    obtain ⟨us, vs, ws, -, -, -, rfl⟩ := h
    exact ⟨_, _, rfl, rfl⟩
  | foreach ty name iter body =>
    obtain ⟨us, vs, -, -, rfl⟩ := h
    exact ⟨_, _, rfl, rfl⟩

/-- A statement that was read has used up a token. -/
theorem Spans.length_lt {st : Stmt} {s t : TokenStream} (h : st.Spans s t) :
    t.kinds.length < s.kinds.length := by
  obtain ⟨ts, hts, hkinds⟩ := h.spells
  obtain ⟨first, others, rfl, -⟩ := begins_of_spells h.wellFormed hts
  rw [hkinds, List.length_append, List.length_cons]
  omega

/-- Two lists that agree up to the first token of a kind agree as a whole. -/
theorem eq_of_append_eq {f : Token → Bool} : ∀ {as bs xs ys : List Token} {x y : Token},
    as ++ x :: xs = bs ++ y :: ys → (∀ t ∈ as, f t = false) → (∀ t ∈ bs, f t = false) →
    f x = true → f y = true → as = bs := by
  intro as
  induction as with
  | nil =>
    intro bs xs ys x y h _ hbs hx _
    cases bs with
    | nil => rfl
    | cons b bs =>
      simp only [List.nil_append, List.cons_append, List.cons.injEq] at h
      rw [h.1, hbs b (by simp)] at hx
      cases hx
  | cons a as ih =>
    intro bs xs ys x y h has hbs hx hy
    cases bs with
    | nil =>
      simp only [List.nil_append, List.cons_append, List.cons.injEq] at h
      rw [← h.1, has a (by simp)] at hy
      cases hy
    | cons b bs =>
      simp only [List.cons_append, List.cons.injEq] at h
      rw [h.1, ih h.2 (fun t ht => has t (by simp [ht])) (fun t ht => hbs t (by simp [ht])) hx hy]

/-- Where a tree stands that does not look like a declaration, no declaration begins. -/
theorem undeclared_of_not_declaring {e : Expr} (h : ¬ e.Declaring) {us rest : List Token}
    (hus : e.Spells us) {next : Token} (hnext : followsDeclared next = true) {s : TokenStream}
    (hs : s.kinds = us ++ next :: rest) : Undeclared s := by
  intro ty declared t hdecl
  have hkinds := hdecl.kinds
  obtain ⟨u, hty, -, -, hfollows⟩ := hdecl
  rw [current_token] at hfollows
  cases hrest : t.kinds with
  | nil =>
    rw [hrest] at hfollows
    cases hfollows
  | cons y ys =>
    rw [hrest] at hfollows hkinds
    have hplain : ∀ x ∈ ty.tokens ++ [.ident declared], followsDeclared x = false := by
      intro x hx
      rcases (by simpa using hx : x ∈ ty.tokens ∨ x = .ident declared) with hx | rfl
      · have := ty.isTypeToken_of_mem_tokens x hx
        unfold TypeExpr.isTypeToken at this
        split at this <;> first | rfl | cases this
      · rfl
    have heq : us ++ next :: rest = (ty.tokens ++ [.ident declared]) ++ y :: ys := by
      rw [← hs, hkinds]
      simp
    have := eq_of_append_eq heq (fun x hx => hus.followsDeclared_of_mem hx) hplain hnext hfollows
    exact h ⟨us, hus, ty, declared, hty.2, this⟩

/-- A statement that begins like an expression and is no declaration is read as one. -/
theorem stmtNested_simple {n : Nat} {s : TokenStream} (hun : Undeclared s)
    (h : s.current.token.opens = true ∨ s.current.token = .symbol .semi) :
    stmtNested n s = simpleStmt s := by
  cases n with
  | zero => rfl
  | succ n =>
    rw [stmtNested_succ]
    split
    · next hc =>
      rw [hc] at h
      rcases h with h | h <;> cases h
    · next hc =>
      rw [hc] at h
      rcases h with h | h <;> cases h
    · next hc =>
      rw [hc] at h
      rcases h with h | h <;> cases h
    · next hc =>
      rw [hc] at h
      rcases h with h | h <;> cases h
    · rw [bind_of_ok (declarator_of_not_declares hun)]
    · rfl

theorem assign_stops : (Token.symbol .assign).Stops 0 :=
  ⟨rfl, by simp [Level.all, Level.disjunction, Level.conjunction, Level.equality,
    Level.comparison, Level.sum, Level.product]⟩

/-- An expression in front of a delimiter. -/
theorem succeeds_expr_delimited {e : Expr} (hwf : e.WellFormed) (hres : e.Resolved)
    {s : TokenStream} {us rest : List Token} (hus : e.Spells us) (hs : s.kinds = us ++ rest)
    (hrest : (rest.headD .eof).delimits = true) : Succeeds (Parser.expr s) (e.ReadAs rest) :=
  Expr.succeeds_expr hwf hres (Expr.stands_of_delimits hus hs hrest)
    (Token.Stops.of_delimits hrest)

theorem succeeds_simple_expr {e : Expr} (hwf : e.WellFormed) (hres : e.Resolved)
    {s : TokenStream} {us rest : List Token} (hus : e.Spells us)
    (hs : s.kinds = us ++ .symbol .semi :: rest) :
    Succeeds (simpleStmt s) ((Stmt.expr e).ReadAs rest) := by
  refine (succeeds_expr_delimited hwf hres hus hs rfl).bind fun e' t he' => ?_
  rw [accept_bind, if_neg (by rw [current_of_kinds he'.2]; simp)]
  refine succeeds_expect_bind he'.2 (succeeds_pure ⟨?_, advance_of_kinds he'.2⟩)
  simp only [bare, mapExprs, he'.1]

theorem succeeds_simple_assign {target value : Expr} (hwf : target.WellFormed)
    (hres : target.Resolved) (hends : target.endsMissing = false) (hwf' : value.WellFormed)
    (hres' : value.Resolved) {s : TokenStream} {us vs rest : List Token} (hus : target.Spells us)
    (hvs : value.Spells vs)
    (hs : s.kinds = us ++ .symbol .assign :: (vs ++ .symbol .semi :: rest)) :
    Succeeds (simpleStmt s) ((Stmt.assign target value).ReadAs rest) := by
  have hstands : target.Stands s (.symbol .assign :: (vs ++ .symbol .semi :: rest)) := by
    refine ⟨⟨us, hus, hs⟩, fun h => ?_, by simp⟩
    rw [hends] at h
    cases h
  refine (Expr.succeeds_expr hwf hres hstands assign_stops).bind fun target' t ht => ?_
  rw [accept_bind, if_pos (current_of_kinds ht.2)]
  have hadv := advance_of_kinds ht.2
  refine (succeeds_expr_delimited hwf' hres' hvs hadv rfl).bind fun value' u hu => ?_
  refine succeeds_expect_bind hu.2 (succeeds_pure ⟨?_, advance_of_kinds hu.2⟩)
  simp only [bare, mapExprs, ht.1, hu.1]

theorem succeeds_expr {n : Nat} {value : Expr} (hwf : (Stmt.expr value).WellFormed)
    (hres : value.Resolved) {s : TokenStream} {us rest : List Token} (hus : value.Spells us)
    (hs : s.kinds = us ++ .symbol .semi :: rest) :
    Succeeds (stmtNested n s) ((Stmt.expr value).ReadAs rest) := by
  have hun := undeclared_of_not_declaring hwf.2 hus rfl hs
  have hcurrent : s.current.token.opens = true ∨ s.current.token = .symbol .semi := by
    rw [current_token, hs]
    rcases Expr.nil_or_opens_of_spells hwf.1 hus with ⟨rfl, -⟩ | ⟨first, us, rfl, hopens⟩
    · exact Or.inr rfl
    · exact Or.inl hopens
  rw [stmtNested_simple hun hcurrent]
  exact succeeds_simple_expr hwf.1 hres hus hs

theorem succeeds_assign {n : Nat} {target value : Expr}
    (hwf : (Stmt.assign target value).WellFormed) (htarget : target.Resolved)
    (hvalue : value.Resolved) {s : TokenStream} {us vs rest : List Token}
    (hus : target.Spells us) (hvs : value.Spells vs)
    (hs : s.kinds = us ++ .symbol .assign :: (vs ++ .symbol .semi :: rest)) :
    Succeeds (stmtNested n s) ((Stmt.assign target value).ReadAs rest) := by
  have hun := undeclared_of_not_declaring hwf.2.2.2 hus rfl hs
  have hcurrent : s.current.token.opens = true := by
    obtain ⟨first, us, rfl, hopens⟩ := opens_of_present hwf.1 hwf.2.2.1 hus
    rw [current_token, hs]
    exact hopens
  rw [stmtNested_simple hun (Or.inl hcurrent)]
  exact succeeds_simple_assign hwf.1 htarget hwf.2.2.1 hwf.2.1 hvalue hus hvs hs

theorem succeeds_varStmt {name : String} {init : Expr} (hwf : init.WellFormed)
    (hres : init.Resolved) {line line' : Nat} {s : TokenStream} {us rest : List Token}
    (hus : init.Spells us)
    (hs : s.kinds = .ident name :: .symbol .assign :: (us ++ .symbol .semi :: rest)) :
    Succeeds (varStmt line s) ((Stmt.declare none name (some init) line').ReadAs rest) := by
  refine succeeds_name_bind hs ?_
  have hadv := advance_of_kinds hs
  rw [accept_bind, if_pos (current_of_kinds hadv)]
  refine (succeeds_expr_delimited hwf hres hus (advance_of_kinds hadv) rfl).bind fun e' t he' => ?_
  refine succeeds_expect_bind he'.2 (succeeds_pure ⟨?_, advance_of_kinds he'.2⟩)
  simp only [bare, mapExprs, Option.map_some, he'.1]

theorem succeeds_typedStmt {ty : TypeExpr} {name : String} {init : Option Expr}
    (hwf : ∀ e ∈ init, e.WellFormed) (hres : ∀ e ∈ init, e.Resolved) {line line' : Nat}
    {s : TokenStream} {us rest : List Token} (hus : SpellsInit init us)
    (hs : s.kinds = us ++ .symbol .semi :: rest) :
    Succeeds (typedStmt ty name line s) ((Stmt.declare (some ty) name init line').ReadAs rest) := by
  rw [typedStmt_apply]
  cases init with
  | none =>
    obtain rfl : us = [] := hus
    rw [List.nil_append] at hs
    rw [if_neg (by rw [current_of_kinds hs]; simp)]
    exact succeeds_expect_bind hs (succeeds_pure ⟨rfl, advance_of_kinds hs⟩)
  | some e =>
    obtain ⟨us, hus, rfl⟩ := hus
    rw [List.cons_append] at hs
    rw [if_pos (current_of_kinds hs)]
    have hadv := advance_of_kinds hs
    refine (succeeds_expr_delimited (hwf e rfl) (hres e rfl) hus hadv rfl).bind fun e' t he' => ?_
    refine succeeds_expect_bind he'.2 (succeeds_pure ⟨?_, advance_of_kinds he'.2⟩)
    simp only [bare, mapExprs, Option.map_some, he'.1]

theorem succeeds_declare {n : Nat} {ty : Option TypeExpr} {name : String} {init : Option Expr}
    {line : Nat} (hwf : (Stmt.declare ty name init line).WellFormed)
    (hres : ∀ e ∈ init, e.Resolved) {s : TokenStream} {us rest : List Token}
    (hus : SpellsInit init us)
    (hs : s.kinds = declaredTokens ty ++ .ident name :: (us ++ .symbol .semi :: rest))
    (hn : s.kinds.length ≤ n) :
    Succeeds (stmtNested n s) ((Stmt.declare ty name init line).ReadAs rest) := by
  obtain ⟨n, rfl⟩ : ∃ k, n = k + 1 := ⟨n - 1, by rw [hs] at hn; simp at hn; omega⟩
  rw [stmtNested_succ]
  cases ty with
  | none =>
    rw [declaredTokens, List.singleton_append] at hs
    rw [current_of_kinds hs]
    have hadv := advance_of_kinds hs
    cases init with
    | none => cases hwf.2.1 rfl
    | some e =>
      obtain ⟨us, hus, rfl⟩ := hus
      exact succeeds_varStmt (hwf.2.2 e rfl) (hres e rfl) hus hadv
  | some ty =>
    obtain ⟨head, more, htokens⟩ := TypeExpr.tokens_eq_ident_cons (hwf.1 ty rfl)
    have hcurrent : s.current.token = .ident head := by
      rw [declaredTokens, htokens, List.cons_append] at hs
      exact current_of_kinds hs
    rw [hcurrent]
    have hfollows : followsDeclared ((us ++ .symbol .semi :: rest).headD .eof) = true := by
      cases init with
      | none =>
        obtain rfl : us = [] := hus
        rfl
      | some e =>
        obtain ⟨us, -, rfl⟩ := hus
        rfl
    refine (declarator_of_tokens (hwf.1 ty rfl) hs hfollows).bind ?_
    rintro d t ⟨rfl, ht⟩
    exact succeeds_typedStmt hwf.2.2 hres hus ht

/-! ### Statements with parts -/

/-- Statements were read up to marks and lines, and `rest` is left. -/
def AllReadAs (stmts : List Stmt) (rest : List Token) (stmts' : List Stmt) (t : TokenStream) :
    Prop :=
  stmts'.map bare = stmts.map bare ∧ t.kinds = rest

/-- The statement is read by a parser whose bound its tokens do not pass. -/
def ReadBy (st : Stmt) (n : Nat) : Prop :=
  ∀ ⦃s : TokenStream⦄ ⦃ts rest : List Token⦄, st.Spells ts → s.kinds = ts ++ rest →
    s.kinds.length ≤ n → (st.endsOpen = true → rest.headD .eof ≠ .keyword .else_) →
    Succeeds (stmtNested n s) (st.ReadAs rest)

/-- Behind a statement stands the first token of the next one, or what follows them all. -/
theorem headD_ne_else {stmts : List Stmt} (hwf : AllWellFormed stmts) {ts rest : List Token}
    (hts : SpellsAll stmts ts) (hrest : rest.headD .eof ≠ .keyword .else_) :
    (ts ++ rest).headD .eof ≠ .keyword .else_ := by
  cases stmts with
  | nil =>
    obtain rfl : ts = [] := hts
    exact hrest
  | cons first others =>
    obtain ⟨us, vs, hus, -, rfl⟩ := hts
    obtain ⟨t, us, rfl, hbegins⟩ := begins_of_spells hwf.1 hus
    show t ≠ .keyword .else_
    rintro rfl
    cases hbegins

theorem succeeds_blockItems {k : Nat} {rest : List Token} : ∀ {stmts : List Stmt},
    AllWellFormed stmts → (∀ p ∈ stmts, p.ReadBy k) →
    ∀ {n : Nat} {s : TokenStream} {ts : List Token}, SpellsAll stmts ts →
      s.kinds = ts ++ .symbol .rBrace :: rest → s.kinds.length ≤ k → s.kinds.length ≤ n →
      Succeeds (blockItems (stmtNested k) n s) (AllReadAs stmts rest) := by
  intro stmts
  induction stmts with
  | nil =>
    rintro - - n s ts rfl hs _ hn
    rw [List.nil_append] at hs
    obtain ⟨n, rfl⟩ : ∃ j, n = j + 1 := ⟨n - 1, by rw [hs] at hn; simp at hn; omega⟩
    rw [blockItems_succ, if_pos (current_of_kinds hs)]
    exact ⟨[], s.advance, rfl, rfl, advance_of_kinds hs⟩
  | cons first others ih =>
    rintro ⟨hwf, hwfs⟩ hread n s ts ⟨us, vs, hus, hvs, rfl⟩ hs hk hn
    rw [List.append_assoc] at hs
    obtain ⟨t, us', hcons, hbegins⟩ := begins_of_spells hwf hus
    have hcurrent : s.current.token = t := by
      rw [hcons, List.cons_append] at hs
      exact current_of_kinds hs
    have hlen : s.kinds.length = us'.length + 1 + (vs ++ .symbol .rBrace :: rest).length := by
      rw [hs, hcons, List.length_append, List.length_cons]
    obtain ⟨n, rfl⟩ : ∃ j, n = j + 1 := ⟨n - 1, by omega⟩
    rw [blockItems_succ, hcurrent, if_neg (by rintro rfl; cases hbegins),
      if_neg (by rintro rfl; cases hbegins)]
    have hnext : (vs ++ .symbol .rBrace :: rest).headD .eof ≠ .keyword .else_ :=
      headD_ne_else hwfs hvs (by simp)
    refine (hread first (by simp) hus hs hk fun _ => hnext).bind fun first' u hu => ?_
    have hlenu : u.kinds.length = (vs ++ .symbol .rBrace :: rest).length := by rw [hu.2]
    refine (ih hwfs (fun p hp => hread p (by simp [hp])) hvs hu.2 (by omega) (by omega)).bind ?_
    intro others' w hw
    refine succeeds_pure ⟨?_, hw.2⟩
    rw [List.map_cons, List.map_cons, hu.1, hw.1]

theorem succeeds_branch {n : Nat} {cond : Expr} {thenBranch : Stmt} {elseBranch : Option Stmt}
    (hwf : (Stmt.branch cond thenBranch elseBranch).WellFormed) (hres : cond.Resolved)
    (hthen : thenBranch.ReadBy n) (helse : ∀ other ∈ elseBranch, other.ReadBy n)
    {s : TokenStream} {us vs ws rest : List Token} (hus : cond.Spells us)
    (hvs : thenBranch.Spells vs) (hws : SpellsElse elseBranch ws)
    (hs : s.kinds = .symbol .lParen :: (us ++ .symbol .rParen :: (vs ++ (ws ++ rest))))
    (hn : s.kinds.length ≤ n)
    (hopen : (Stmt.branch cond thenBranch elseBranch).endsOpen = true →
      rest.headD .eof ≠ .keyword .else_) :
    Succeeds (branchStmt (stmtNested n) s)
      ((Stmt.branch cond thenBranch elseBranch).ReadAs rest) := by
  have hlen : s.kinds.length = us.length + (vs ++ (ws ++ rest)).length + 2 := by
    rw [hs]
    simp
    omega
  rw [branchStmt_apply]
  refine succeeds_expect_bind hs ?_
  have hadv := advance_of_kinds hs
  refine (succeeds_expr_delimited hwf.1 hres hus hadv rfl).bind fun cond' t ht => ?_
  refine succeeds_expect_bind ht.2 ?_
  have hadv' := advance_of_kinds ht.2
  have hclosed : thenBranch.endsOpen = true → (ws ++ rest).headD .eof ≠ .keyword .else_ := by
    intro hends
    cases elseBranch with
    | none =>
      obtain rfl : ws = [] := hws
      exact hopen rfl
    | some other =>
      rw [hwf.2.2.1 rfl] at hends
      cases hends
  refine (hthen hvs hadv' (by rw [hadv']; omega) hclosed).bind fun then' u hu => ?_
  rw [token_bind]
  cases elseBranch with
  | none =>
    obtain rfl : ws = [] := hws
    have hu' : u.kinds = rest := hu.2
    rw [if_neg (by rw [current_token, hu']; exact hopen rfl)]
    refine succeeds_pure ⟨?_, hu'⟩
    have hbare := hu.1
    unfold bare at hbare ⊢
    rw [mapExprs, mapExprs, ht.1, hbare]
  | some other =>
    obtain ⟨ws, hws, rfl⟩ := hws
    have hu' := hu.2
    rw [List.cons_append] at hu'
    rw [if_pos (current_of_kinds hu'), skip_bind]
    have hadv'' := advance_of_kinds hu'
    have hlen' : (ws ++ rest).length ≤ n := by
      simp at hlen ⊢
      omega
    refine (helse other rfl hws hadv'' (by rw [hadv'']; exact hlen') ?_).bind fun other' w hw => ?_
    · intro hends
      exact hopen (by rw [endsOpen]; exact hends)
    · refine succeeds_pure ⟨?_, hw.2⟩
      have hbare := hu.1
      have hbare' := hw.1
      unfold bare at hbare hbare' ⊢
      rw [mapExprs, mapExprs, ht.1, hbare, mapElseExprs, mapElseExprs, hbare']

theorem succeeds_loopVariable {ty : Option TypeExpr} (hres : ∀ ty' ∈ ty, ty'.isResolved = true)
    {name : String} {s : TokenStream} {rest : List Token}
    (hs : s.kinds = declaredTokens ty ++ .ident name :: .keyword .in_ :: rest) :
    Succeeds (loopVariable s) fun v t => v = (ty, name) ∧ t.kinds = .keyword .in_ :: rest := by
  rw [loopVariable, token_bind]
  cases ty with
  | none =>
    rw [declaredTokens, List.singleton_append] at hs
    rw [if_pos (current_of_kinds hs), skip_bind]
    have hadv := advance_of_kinds hs
    exact succeeds_name_bind hadv (succeeds_pure ⟨rfl, advance_of_kinds hadv⟩)
  | some ty =>
    obtain ⟨head, more, htokens⟩ := TypeExpr.tokens_eq_ident_cons (hres ty rfl)
    have hcurrent : s.current.token = .ident head := by
      rw [declaredTokens, htokens, List.cons_append] at hs
      exact current_of_kinds hs
    rw [hcurrent, if_neg (by simp)]
    refine (declarator_of_tokens (hres ty rfl) hs rfl).bind ?_
    rintro d t ⟨rfl, ht⟩
    exact succeeds_pure ⟨rfl, ht⟩

theorem succeeds_foreach {n : Nat} {ty : Option TypeExpr} {name : String} {iter : Expr}
    {body : Stmt} (hwf : (Stmt.foreach ty name iter body).WellFormed) (hres : iter.Resolved)
    (hbody : body.ReadBy n) {s : TokenStream} {us vs rest : List Token} (hus : iter.Spells us)
    (hvs : body.Spells vs)
    (hs : s.kinds = .symbol .lParen :: (declaredTokens ty ++ .ident name :: .keyword .in_ ::
      (us ++ .symbol .rParen :: (vs ++ rest))))
    (hn : s.kinds.length ≤ n)
    (hopen : body.endsOpen = true → rest.headD .eof ≠ .keyword .else_) :
    Succeeds (foreachStmt (stmtNested n) s) ((Stmt.foreach ty name iter body).ReadAs rest) := by
  have hlen : (vs ++ rest).length ≤ n := by
    rw [hs] at hn
    simp at hn ⊢
    omega
  refine succeeds_expect_bind hs ?_
  refine (succeeds_loopVariable hwf.1 (advance_of_kinds hs)).bind ?_
  rintro _ t ⟨rfl, ht⟩
  refine succeeds_expect_bind ht ?_
  refine (succeeds_expr_delimited hwf.2.1 hres hus (advance_of_kinds ht) rfl).bind
    fun iter' u hu => ?_
  refine succeeds_expect_bind hu.2 ?_
  have hadv := advance_of_kinds hu.2
  refine (hbody hvs hadv (by rw [hadv]; exact hlen) hopen).bind fun body' w hw => ?_
  refine succeeds_pure ⟨?_, hw.2⟩
  have hbare := hw.1
  unfold bare at hbare ⊢
  rw [mapExprs, mapExprs, hu.1, hbare]

/-- **The tokens of a well-formed statement are read as the statement.** -/
theorem readBy {st : Stmt} : st.WellFormed → (∀ e ∈ st.roots, e.Resolved) →
    ∀ n, st.ReadBy n := by
  induction st using parts_induction with
  | step st ih =>
    intro hwf hres n s ts rest hts hs hn hopen
    have hparts : ∀ p ∈ st.parts, p.WellFormed → ∀ k, p.ReadBy k := fun p hp hwfp =>
      ih p hp hwfp fun e he => hres e (mem_roots_of_mem_parts hp he)
    cases st with
    | declare ty name init line =>
      obtain ⟨us, hus, rfl⟩ := hts
      refine succeeds_declare hwf (fun e he => hres e ?_) hus (by simpa using hs) hn
      simpa [roots] using he
    | assign target value =>
      obtain ⟨us, vs, hus, hvs, rfl⟩ := hts
      exact succeeds_assign hwf (hres target (by simp [roots])) (hres value (by simp [roots]))
        hus hvs (by simpa using hs)
    | expr value =>
      obtain ⟨us, hus, rfl⟩ := hts
      exact succeeds_expr hwf (hres value (by simp [roots])) hus (by simpa using hs)
    | block stmts =>
      obtain ⟨us, hus, rfl⟩ := hts
      rw [List.cons_append, List.append_assoc, List.singleton_append] at hs
      have hadv := advance_of_kinds hs
      obtain ⟨n, rfl⟩ : ∃ k, n = k + 1 := ⟨n - 1, by rw [hs] at hn; simp at hn; omega⟩
      have hlen : s.advance.kinds.length ≤ n := by
        simp
        omega
      rw [stmtNested_succ, current_of_kinds hs]
      refine (succeeds_blockItems hwf (fun p hp => ?_) hus hadv hlen hlen).bind fun stmts' t ht => ?_
      · exact hparts p hp (allWellFormed_iff.mp hwf p hp) n
      · refine succeeds_pure ⟨?_, ht.2⟩
        have hbare := ht.1
        unfold bare at hbare ⊢
        rw [mapExprs, mapExprs, mapAllExprs_eq, mapAllExprs_eq, hbare]
    | branch cond thenBranch elseBranch =>
      obtain ⟨us, vs, ws, hus, hvs, hws, rfl⟩ := hts
      have hs' : s.kinds = .keyword .if_ :: .symbol .lParen ::
          (us ++ .symbol .rParen :: (vs ++ (ws ++ rest))) := by
        simpa using hs
      obtain ⟨n, rfl⟩ : ∃ k, n = k + 1 := ⟨n - 1, by rw [hs'] at hn; simp at hn; omega⟩
      rw [stmtNested_succ, current_of_kinds hs']
      refine succeeds_branch hwf (hres cond (by simp [roots_branch])) ?_ ?_ hus hvs hws
        (advance_of_kinds hs') (by simp; omega) hopen
      · exact hparts thenBranch (by simp [parts]) hwf.2.1 n
      · rintro other rfl
        exact hparts other (by simp [parts]) hwf.2.2.2 n
    | foreach ty name iter body =>
      obtain ⟨us, vs, hus, hvs, rfl⟩ := hts
      have hs' : s.kinds = .keyword .foreach :: .symbol .lParen :: (declaredTokens ty ++
          .ident name :: .keyword .in_ :: (us ++ .symbol .rParen :: (vs ++ rest))) := by
        simpa using hs
      obtain ⟨n, rfl⟩ : ∃ k, n = k + 1 := ⟨n - 1, by rw [hs'] at hn; simp at hn; omega⟩
      rw [stmtNested_succ, current_of_kinds hs']
      refine succeeds_foreach hwf (hres iter (by simp [roots])) ?_ hus hvs
        (advance_of_kinds hs') (by simp; omega) (by simpa [endsOpen] using hopen)
      exact hparts body (by simp [parts]) hwf.2.2 n

end Stmt

/-! ### Whole programs -/

namespace Parser

open TokenStream

theorem succeeds_stmtsToEnd : ∀ {stmts : List Stmt}, Stmt.AllWellFormed stmts →
    (∀ e ∈ Stmt.rootsOfAll stmts, e.Resolved) →
    ∀ {n : Nat} {s : TokenStream}, Stmt.SpellsAll stmts s.kinds → s.kinds.length ≤ n →
      Succeeds (stmtsToEnd n s) (Stmt.AllReadAs stmts []) := by
  intro stmts
  induction stmts with
  | nil =>
    intro _ _ n s hs _
    have hs : s.kinds = [] := hs
    cases n with
    | zero => exact succeeds_pure ⟨rfl, hs⟩
    | succ n =>
      rw [stmtsToEnd_succ, if_pos (by rw [current_token, hs]; rfl)]
      exact ⟨[], s, rfl, rfl, hs⟩
  | cons first others ih =>
    rintro ⟨hwf, hwfs⟩ hres n s ⟨us, vs, hus, hvs, hs⟩ hn
    obtain ⟨t, us', hcons, hbegins⟩ := Stmt.begins_of_spells hwf hus
    have hcurrent : s.current.token = t := by
      rw [hcons, List.cons_append] at hs
      exact current_of_kinds hs
    have hlen : s.kinds.length = us'.length + 1 + vs.length := by
      rw [hs, hcons, List.length_append, List.length_cons]
    obtain ⟨n, rfl⟩ : ∃ j, n = j + 1 := ⟨n - 1, by omega⟩
    rw [stmtsToEnd_succ, hcurrent, if_neg (by rintro rfl; cases hbegins)]
    have hnext : vs.headD .eof ≠ .keyword .else_ := by
      have := Stmt.headD_ne_else hwfs hvs (show ([] : List Token).headD .eof ≠ _ by simp)
      rwa [List.append_nil] at this
    have hread := Stmt.readBy hwf (fun e he => hres e (by simp [Stmt.rootsOfAll, he]))
      s.unread.length hus hs (by simp) fun _ => hnext
    refine Succeeds.bind (by rw [stmt, remaining_bind]; exact hread) fun first' u hu => ?_
    refine (ih hwfs (fun e he => hres e (by simp [Stmt.rootsOfAll, he])) ?_ ?_).bind ?_
    · rw [hu.2]
      exact hvs
    · rw [hu.2]
      omega
    · intro others' w hw
      refine succeeds_pure ⟨?_, hw.2⟩
      rw [List.map_cons, List.map_cons, hu.1, hw.1]

/-- **The tokens of well-formed statements are read as a program of these statements.** -/
theorem succeeds_program {stmts : List Stmt} (hwf : Stmt.AllWellFormed stmts)
    (hres : ∀ e ∈ Stmt.rootsOfAll stmts, e.Resolved) {s : TokenStream}
    (hs : Stmt.SpellsAll stmts s.kinds) :
    Succeeds (program s) fun p _ => p.stmts.map Stmt.bare = stmts.map Stmt.bare := by
  rw [program, remaining_bind]
  refine (succeeds_stmtsToEnd hwf hres hs (by simp)).bind fun stmts' t ht => ?_
  rw [get_bind]
  exact succeeds_pure ht.1

/-! ### Where a program ends

The loop over statements stops at the end mark or when its bound is used up, and the bound
is the number of unread tokens.  Each statement uses up a token, so there are none left
then either.
-/

theorem stmtsToEnd_ends : ∀ {n : Nat} {s t : TokenStream} {stmts : List Stmt},
    s.kinds.length ≤ n → stmtsToEnd n s = .ok stmts t → t.current.token = .eof := by
  intro n
  induction n with
  | zero =>
    intro s t stmts hn h
    obtain ⟨rfl, rfl⟩ := pure_eq_ok_iff.mp h
    rw [current_token, List.length_eq_zero_iff.mp (Nat.le_zero.mp hn)]
    rfl
  | succ n ih =>
    intro s t stmts hn h
    rw [stmtsToEnd_succ] at h
    split at h
    · next heof =>
      cases h
      exact heof
    · obtain ⟨first, u, hfirst, h⟩ := bind_eq_ok_iff.mp h
      obtain ⟨rest, v, hrest, h⟩ := bind_eq_ok_iff.mp h
      obtain ⟨rfl, rfl⟩ := pure_eq_ok_iff.mp h
      rw [stmt, remaining_bind] at hfirst
      have hlt := (stmtNested_spans (by simp) hfirst).length_lt
      exact ih (by omega) hrest

/-- A program that is read ends at the end mark. -/
theorem program_ends {s t : TokenStream} {p : Program} (h : program s = .ok p t) :
    t.current.token = .eof := by
  rw [program, remaining_bind] at h
  obtain ⟨stmts, u, hstmts, h⟩ := bind_eq_ok_iff.mp h
  rw [get_bind] at h
  obtain ⟨rfl, rfl⟩ := pure_eq_ok_iff.mp h
  exact stmtsToEnd_ends (by simp) hstmts

end Parser

end ListSugar
