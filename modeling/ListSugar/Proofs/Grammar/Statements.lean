/-
The grammar of statements, apart from the parser.

As for expressions, `Spans` records one reading of a statement, `Spells` gives its
tokens and `WellFormed` is what makes it readable.  Two things are asked beyond the
expressions: a statement that begins with an expression does not look like a
declaration, since a declaration is tried first, and a choice without an alternative
does not stand directly in front of `else`, since the inner choice would take it.
-/
import ListSugar.Proofs.Grammar.Spanned
import ListSugar.Proofs.Grammar.Words

namespace ListSugar

/-- The tokens are a type and a name, as at the head of a declaration. -/
def Declaring (ts : List Token) : Prop :=
  ∃ (ty : TypeExpr) (declared : String), ty.isResolved = true ∧
    ts = ty.tokens ++ [.ident declared]

/-- The tree can be written as the head of a declaration. -/
def Expr.Declaring (e : Expr) : Prop := ∃ ts, e.Spells ts ∧ ListSugar.Declaring ts

/-- The tokens of a declared type, or `var` where there is none. -/
def declaredTokens : Option TypeExpr → List Token
  | none => [.keyword .var]
  | some ty => ty.tokens

namespace Stmt

/-- Whether the statement ends in a choice that an `else` could still belong to. -/
def endsOpen : Stmt → Bool
  | .branch _ _ none => true
  | .branch _ _ (some s) => s.endsOpen
  | .foreach _ _ _ body => body.endsOpen
  | _ => false

mutual

/-- The statement can be read back from its tokens, as far as its parts and the choice of
rules go. -/
def WellFormed : Stmt → Prop
  | .declare ty _ init _ => (∀ ty' ∈ ty, ty'.isResolved = true) ∧ (ty = none → init.isSome) ∧
      ∀ e ∈ init, e.WellFormed
  | .assign target value => target.WellFormed ∧ value.WellFormed ∧
      target.endsMissing = false ∧ ¬ target.Declaring
  | .expr value => value.WellFormed ∧ ¬ value.Declaring
  | .block stmts => AllWellFormed stmts
  | .branch cond thenBranch elseBranch => cond.WellFormed ∧ thenBranch.WellFormed ∧
      (elseBranch.isSome → thenBranch.endsOpen = false) ∧ ElseWellFormed elseBranch
  | .foreach ty _ iter body => (∀ ty' ∈ ty, ty'.isResolved = true) ∧ iter.WellFormed ∧
      body.WellFormed

/-- Every one of the statements can be read back. -/
def AllWellFormed : List Stmt → Prop
  | [] => True
  | s :: rest => s.WellFormed ∧ AllWellFormed rest

/-- The alternative, if there is one, can be read back. -/
def ElseWellFormed : Option Stmt → Prop
  | none => True
  | some s => s.WellFormed

end

theorem allWellFormed_iff {stmts : List Stmt} :
    AllWellFormed stmts ↔ ∀ p ∈ stmts, p.WellFormed := by
  induction stmts with
  | nil => simp [AllWellFormed]
  | cons first rest ih => simp [AllWellFormed, ih]

/-- The tokens write the initializer of a declaration. -/
def SpellsInit : Option Expr → List Token → Prop
  | none, ts => ts = []
  | some e, ts => ∃ us, e.Spells us ∧ ts = .symbol .assign :: us

mutual

/-- The tokens `ts` write the statement. -/
def Spells : Stmt → List Token → Prop
  | .declare ty name init _, ts => ∃ us, SpellsInit init us ∧
      ts = declaredTokens ty ++ .ident name :: (us ++ [.symbol .semi])
  | .assign target value, ts => ∃ us vs, target.Spells us ∧ value.Spells vs ∧
      ts = us ++ .symbol .assign :: (vs ++ [.symbol .semi])
  | .expr value, ts => ∃ us, value.Spells us ∧ ts = us ++ [.symbol .semi]
  | .block stmts, ts => ∃ us, SpellsAll stmts us ∧
      ts = .symbol .lBrace :: (us ++ [.symbol .rBrace])
  | .branch cond thenBranch elseBranch, ts => ∃ us vs ws, cond.Spells us ∧
      thenBranch.Spells vs ∧ SpellsElse elseBranch ws ∧
      ts = .keyword .if_ :: .symbol .lParen :: (us ++ .symbol .rParen :: (vs ++ ws))
  | .foreach ty name iter body, ts => ∃ us vs, iter.Spells us ∧ body.Spells vs ∧
      ts = .keyword .foreach :: .symbol .lParen :: (declaredTokens ty ++
        .ident name :: .keyword .in_ :: (us ++ .symbol .rParen :: vs))

/-- The tokens write the statements one after the other. -/
def SpellsAll : List Stmt → List Token → Prop
  | [], ts => ts = []
  | s :: rest, ts => ∃ us vs, s.Spells us ∧ SpellsAll rest vs ∧ ts = us ++ vs

/-- The tokens write the alternative of a choice. -/
def SpellsElse : Option Stmt → List Token → Prop
  | none, ts => ts = []
  | some s, ts => ∃ us, s.Spells us ∧ ts = .keyword .else_ :: us

end

mutual

/-- The tokens of the types and names that a statement declares. -/
def heads : Stmt → List Token
  | .declare ty name _ _ => declaredTokens ty ++ [.ident name]
  | .assign _ _ => []
  | .expr _ => []
  | .block stmts => headsOfAll stmts
  | .branch _ thenBranch elseBranch => thenBranch.heads ++ headsOfElse elseBranch
  | .foreach ty name _ body => declaredTokens ty ++ .ident name :: body.heads

/-- The tokens that several statements declare. -/
def headsOfAll : List Stmt → List Token
  | [] => []
  | s :: rest => s.heads ++ headsOfAll rest

/-- The tokens that the alternative of a choice declares. -/
def headsOfElse : Option Stmt → List Token
  | none => []
  | some s => s.heads

end

theorem headsOfAll_eq (stmts : List Stmt) : headsOfAll stmts = stmts.flatMap heads := by
  induction stmts with
  | nil => rfl
  | cons s rest ih => rw [headsOfAll, ih, List.flatMap_cons]

/-- What a part declares is declared by the whole. -/
theorem mem_heads_of_mem_parts {s p : Stmt} (hp : p ∈ s.parts) {t : Token} (ht : t ∈ p.heads) :
    t ∈ s.heads := by
  cases s with
  | declare ty name init line => cases hp
  | assign target value => cases hp
  | expr value => cases hp
  | block stmts =>
    rw [heads, headsOfAll_eq, List.mem_flatMap]
    exact ⟨p, hp, ht⟩
  | branch cond thenBranch elseBranch =>
    rcases (by simpa [parts] using hp : p = thenBranch ∨ elseBranch = some p) with rfl | rfl
    · simp [heads, ht]
    · simp [heads, headsOfElse, ht]
  | foreach ty name iter body =>
    obtain rfl : p = body := by simpa [parts] using hp
    simp [heads, ht]

/-! ### A statement between two streams -/

/-- No declaration begins at the stream. -/
def Undeclared (s : TokenStream) : Prop :=
  ∀ ty declared t, ¬ Parser.Declares ty declared s t

/-- The type of a declared variable was read, or `var` in its place. -/
def SpansDeclared : Option TypeExpr → TokenStream → TokenStream → Prop
  | none, s, t => s.current.token = .keyword .var ∧ t = s.advance
  | some ty, s, t => Parser.TypeBetween ty s t

/-- The initializer of a declaration was read. -/
def SpansInit : Option Expr → TokenStream → TokenStream → Prop
  | none, s, t => t = s
  | some e, s, t => s.current.token = .symbol .assign ∧ e.Spans s.advance t

mutual

/-- The statement was read between the streams `s` and `t`. -/
def Spans : Stmt → TokenStream → TokenStream → Prop
  | .declare ty name init line, s, t => (ty = none → init.isSome) ∧
      line = s.current.pos.line ∧ ∃ u v, SpansDeclared ty s u ∧
        u.current.token = .ident name ∧ SpansInit init u.advance v ∧
        v.current.token = .symbol .semi ∧ t = v.advance
  | .assign target value, s, t => Undeclared s ∧ ∃ u v, target.Spans s u ∧
      u.current.token = .symbol .assign ∧ value.Spans u.advance v ∧
      v.current.token = .symbol .semi ∧ t = v.advance
  | .expr value, s, t => Undeclared s ∧ ∃ u, value.Spans s u ∧
      u.current.token = .symbol .semi ∧ t = u.advance
  | .block stmts, s, t => s.current.token = .symbol .lBrace ∧
      ∃ u, SpansAll stmts s.advance u ∧ u.current.token = .symbol .rBrace ∧ t = u.advance
  | .branch cond thenBranch elseBranch, s, t => s.current.token = .keyword .if_ ∧
      s.advance.current.token = .symbol .lParen ∧ ∃ u v, cond.Spans s.advance.advance u ∧
        u.current.token = .symbol .rParen ∧ thenBranch.Spans u.advance v ∧
        SpansElse elseBranch v t
  | .foreach ty name iter body, s, t => s.current.token = .keyword .foreach ∧
      s.advance.current.token = .symbol .lParen ∧ ∃ u v,
        SpansDeclared ty s.advance.advance u ∧ u.current.token = .ident name ∧
        u.advance.current.token = .keyword .in_ ∧ iter.Spans u.advance.advance v ∧
        v.current.token = .symbol .rParen ∧ body.Spans v.advance t

/-- The statements were read one after the other. -/
def SpansAll : List Stmt → TokenStream → TokenStream → Prop
  | [], s, t => t = s
  | first :: rest, s, t => ∃ u, first.Spans s u ∧ SpansAll rest u t

/-- The alternative of a choice was read, or there is none. -/
def SpansElse : Option Stmt → TokenStream → TokenStream → Prop
  | none, s, t => s.current.token ≠ .keyword .else_ ∧ t = s
  | some other, s, t => s.current.token = .keyword .else_ ∧ other.Spans s.advance t

end

/-! ### What is known of a statement that was read

The facts about expressions are carried over: tokens, readability and known types.  Two
facts are new, and both are about what stands behind a statement, an `else` and the sign
that would make it a declaration.
-/

open TokenStream

theorem SpansDeclared.kinds {ty : Option TypeExpr} {s t : TokenStream}
    (h : SpansDeclared ty s t) : s.kinds = declaredTokens ty ++ t.kinds := by
  cases ty with
  | none =>
    obtain ⟨hvar, rfl⟩ := h
    exact kinds_of_current hvar (by simp)
  | some ty => exact h.1.kinds

theorem SpansInit.spells {init : Option Expr} {s t : TokenStream} (h : SpansInit init s t) :
    ∃ ts, SpellsInit init ts ∧ s.kinds = ts ++ t.kinds := by
  cases init with
  | none =>
    obtain rfl : t = s := h
    exact ⟨[], rfl, rfl⟩
  | some e =>
    obtain ⟨hassign, he⟩ := h
    obtain ⟨us, hus, hkinds⟩ := he.spells
    refine ⟨.symbol .assign :: us, ⟨us, hus, rfl⟩, ?_⟩
    rw [kinds_of_current hassign (by simp), hkinds]
    rfl

theorem spansAll_spells : ∀ {stmts : List Stmt} {s t : TokenStream}, SpansAll stmts s t →
    (∀ p ∈ stmts, ∀ {s t}, p.Spans s t → ∃ ts, p.Spells ts ∧ s.kinds = ts ++ t.kinds) →
    ∃ ts, SpellsAll stmts ts ∧ s.kinds = ts ++ t.kinds := by
  intro stmts
  induction stmts with
  | nil =>
    rintro s t rfl _
    exact ⟨[], rfl, rfl⟩
  | cons first rest ih =>
    rintro s t ⟨u, hfirst, hrest⟩ hspell
    obtain ⟨us, hus, hkinds⟩ := hspell first (by simp) hfirst
    obtain ⟨vs, hvs, hkinds'⟩ := ih hrest fun p hp => hspell p (by simp [hp])
    refine ⟨us ++ vs, ⟨us, vs, hus, hvs, rfl⟩, ?_⟩
    rw [hkinds, hkinds', List.append_assoc]

/-- **The tokens that a statement was read from write the statement.** -/
theorem Spans.spells {st : Stmt} : ∀ {s t : TokenStream}, st.Spans s t →
    ∃ ts, st.Spells ts ∧ s.kinds = ts ++ t.kinds := by
  induction st using parts_induction with
  | step st ih =>
    intro s t h
    cases st with
    | declare ty name init line =>
      obtain ⟨-, -, u, v, hty, hname, hinit, hsemi, rfl⟩ := h
      obtain ⟨us, hus, hkinds⟩ := hinit.spells
      refine ⟨_, ⟨us, hus, rfl⟩, ?_⟩
      rw [hty.kinds, kinds_of_current hname (by simp), hkinds, kinds_of_current hsemi (by simp)]
      simp
    | assign target value =>
      obtain ⟨-, u, v, htarget, hassign, hvalue, hsemi, rfl⟩ := h
      obtain ⟨us, hus, hkinds⟩ := htarget.spells
      obtain ⟨vs, hvs, hkinds'⟩ := hvalue.spells
      refine ⟨_, ⟨us, vs, hus, hvs, rfl⟩, ?_⟩
      rw [hkinds, kinds_of_current hassign (by simp), hkinds', kinds_of_current hsemi (by simp)]
      simp
    | expr value =>
      obtain ⟨-, u, hvalue, hsemi, rfl⟩ := h
      obtain ⟨us, hus, hkinds⟩ := hvalue.spells
      refine ⟨_, ⟨us, hus, rfl⟩, ?_⟩
      rw [hkinds, kinds_of_current hsemi (by simp)]
      simp
    | block stmts =>
      obtain ⟨hopen, u, hall, hclose, rfl⟩ := h
      obtain ⟨us, hus, hkinds⟩ := spansAll_spells hall fun p hp => ih p (by simpa [parts] using hp)
      refine ⟨_, ⟨us, hus, rfl⟩, ?_⟩
      rw [kinds_of_current hopen (by simp), hkinds, kinds_of_current hclose (by simp)]
      simp
    | branch cond thenBranch elseBranch =>
      obtain ⟨hif, hopen, u, v, hcond, hclose, hthen, helse⟩ := h
      obtain ⟨us, hus, hkinds⟩ := hcond.spells
      obtain ⟨vs, hvs, hkinds'⟩ := ih thenBranch (by simp [parts]) hthen
      obtain ⟨ws, hws, hkinds''⟩ :
          ∃ ws, SpellsElse elseBranch ws ∧ v.kinds = ws ++ t.kinds := by
        cases elseBranch with
        | none =>
          obtain ⟨-, rfl⟩ := helse
          exact ⟨[], rfl, rfl⟩
        | some other =>
          obtain ⟨helse, hother⟩ := helse
          obtain ⟨ws, hws, hkinds''⟩ := ih other (by simp [parts]) hother
          refine ⟨.keyword .else_ :: ws, ⟨ws, hws, rfl⟩, ?_⟩
          rw [kinds_of_current helse (by simp), hkinds'']
          rfl
      refine ⟨_, ⟨us, vs, ws, hus, hvs, hws, rfl⟩, ?_⟩
      rw [kinds_of_current hif (by simp), kinds_of_current hopen (by simp), hkinds,
        kinds_of_current hclose (by simp), hkinds', hkinds'']
      simp
    | foreach ty name iter body =>
      obtain ⟨hforeach, hopen, u, v, hty, hname, hin, hiter, hclose, hbody⟩ := h
      obtain ⟨us, hus, hkinds⟩ := hiter.spells
      obtain ⟨vs, hvs, hkinds'⟩ := ih body (by simp [parts]) hbody
      refine ⟨_, ⟨us, vs, hus, hvs, rfl⟩, ?_⟩
      rw [kinds_of_current hforeach (by simp), kinds_of_current hopen (by simp), hty.kinds,
        kinds_of_current hname (by simp), kinds_of_current hin (by simp), hkinds,
        kinds_of_current hclose (by simp), hkinds']
      simp

theorem Spans.length_le {st : Stmt} {s t : TokenStream} (h : st.Spans s t) :
    t.kinds.length ≤ s.kinds.length := by
  obtain ⟨ts, -, hkinds⟩ := h.spells
  rw [hkinds, List.length_append]
  omega

/-- The token behind a choice that is still open is no `else`. -/
theorem Spans.current_ne_else {st : Stmt} : ∀ {s t : TokenStream}, st.Spans s t →
    st.endsOpen = true → t.current.token ≠ .keyword .else_ := by
  induction st using parts_induction with
  | step st ih =>
    intro s t h hopen
    cases st with
    | branch cond thenBranch elseBranch =>
      obtain ⟨-, -, u, v, -, -, -, helse⟩ := h
      cases elseBranch with
      | none =>
        obtain ⟨hne, rfl⟩ := helse
        exact hne
      | some other => exact ih other (by simp [parts]) helse.2 (by simpa [endsOpen] using hopen)
    | foreach ty name iter body =>
      obtain ⟨-, -, u, v, -, -, -, -, -, hbody⟩ := h
      exact ih body (by simp [parts]) hbody (by simpa [endsOpen] using hopen)
    | _ => simp [endsOpen] at hopen

theorem SpansDeclared.resolved {ty : Option TypeExpr} {s t : TokenStream}
    (h : SpansDeclared ty s t) : ∀ ty' ∈ ty, ty'.isResolved = true := by
  rintro ty' rfl
  exact h.2

/-- A tree that was read where no declaration begins does not look like one. -/
theorem not_declaring_of_undeclared {e : Expr} {s t : TokenStream} (hun : Undeclared s)
    (h : e.Spans s t) (hnext : Parser.followsDeclared t.current.token = true) :
    ¬ e.Declaring := by
  rintro ⟨ts, hts, ty, declared, hres, rfl⟩
  obtain ⟨us, hus, hkinds⟩ := h.spells
  have hbrace : Token.symbol .lBrace ∉ ty.tokens ++ [.ident declared] := by
    intro hmem
    have := ty.isTypeToken_of_mem_tokens (.symbol .lBrace) (by simpa using hmem)
    cases this
  rw [← hts.unique hus hbrace, List.append_assoc, List.singleton_append] at hkinds
  rw [current_token] at hnext
  obtain ⟨d, u, hd, rfl, -⟩ := Parser.declarator_of_tokens hres hkinds hnext
  exact hun ty declared u (Parser.declarator_some hd)

theorem spansAll_wellFormed : ∀ {stmts : List Stmt} {s t : TokenStream}, SpansAll stmts s t →
    (∀ p ∈ stmts, ∀ {s t}, p.Spans s t → p.WellFormed) → AllWellFormed stmts := by
  intro stmts
  induction stmts with
  | nil => intro s t _ _; exact trivial
  | cons first rest ih =>
    rintro s t ⟨u, hfirst, hrest⟩ hwf
    exact ⟨hwf first (by simp) hfirst, ih hrest fun p hp => hwf p (by simp [hp])⟩

/-- **A statement that was read is well formed.** -/
theorem Spans.wellFormed {st : Stmt} : ∀ {s t : TokenStream}, st.Spans s t →
    st.WellFormed := by
  induction st using parts_induction with
  | step st ih =>
    intro s t h
    cases st with
    | declare ty name init line =>
      obtain ⟨hinit, -, u, v, hty, -, hspan, -⟩ := h
      refine ⟨hty.resolved, hinit, ?_⟩
      rintro e rfl
      exact hspan.2.wellFormed
    | assign target value =>
      obtain ⟨hun, u, v, htarget, hassign, hvalue, -⟩ := h
      refine ⟨htarget.wellFormed, hvalue.wellFormed, ?_, ?_⟩
      · cases hends : target.endsMissing with
        | false => rfl
        | true =>
          have := htarget.endsOperand_of_endsMissing hends
          rw [hassign] at this
          cases this
      · exact not_declaring_of_undeclared hun htarget (by rw [hassign]; rfl)
    | expr value =>
      obtain ⟨hun, u, hvalue, hsemi, -⟩ := h
      exact ⟨hvalue.wellFormed, not_declaring_of_undeclared hun hvalue (by rw [hsemi]; rfl)⟩
    | block stmts =>
      obtain ⟨-, u, hall, -⟩ := h
      exact spansAll_wellFormed hall fun p hp => ih p (by simpa [parts] using hp)
    | branch cond thenBranch elseBranch =>
      obtain ⟨-, -, u, v, hcond, -, hthen, helse⟩ := h
      refine ⟨hcond.wellFormed, ih thenBranch (by simp [parts]) hthen, ?_, ?_⟩
      · cases elseBranch with
        | none => intro hnone; cases hnone
        | some other =>
          intro _
          cases hopen : thenBranch.endsOpen with
          | false => rfl
          | true => exact absurd helse.1 (hthen.current_ne_else hopen)
      · cases elseBranch with
        | none => exact trivial
        | some other => exact ih other (by simp [parts]) helse.2
    | foreach ty name iter body =>
      obtain ⟨-, -, u, v, hty, -, -, hiter, -, hbody⟩ := h
      exact ⟨hty.resolved, hiter.wellFormed, ih body (by simp [parts]) hbody⟩

theorem spansAll_roots {P : Expr → Prop} : ∀ {stmts : List Stmt} {s t : TokenStream},
    SpansAll stmts s t → (∀ p ∈ stmts, ∀ {s t}, p.Spans s t → ∀ e ∈ p.roots, P e) →
    ∀ e ∈ rootsOfAll stmts, P e := by
  intro stmts
  induction stmts with
  | nil => intro s t _ _ e he; cases he
  | cons first rest ih =>
    rintro s t ⟨u, hfirst, hrest⟩ hP e he
    rcases List.mem_append.mp he with he | he
    · exact hP first (by simp) hfirst e he
    · exact ih hrest (fun p hp => hP p (by simp [hp])) e he

/-- What holds of every tree that was read holds of the expressions of a statement that
was read. -/
theorem Spans.forall_roots {P : Expr → Prop} (hP : ∀ {e s t}, e.Spans s t → P e) {st : Stmt} :
    ∀ {s t : TokenStream}, st.Spans s t → ∀ e ∈ st.roots, P e := by
  induction st using parts_induction with
  | step st ih =>
    intro s t h e he
    cases st with
    | declare ty name init line =>
      obtain ⟨-, -, u, v, -, -, hinit, -⟩ := h
      obtain rfl : init = some e := by simpa [roots] using he
      exact hP hinit.2
    | assign target value =>
      obtain ⟨-, u, v, htarget, -, hvalue, -⟩ := h
      rcases (by simpa [roots] using he : e = target ∨ e = value) with rfl | rfl
      · exact hP htarget
      · exact hP hvalue
    | expr value =>
      obtain ⟨-, u, hvalue, -⟩ := h
      obtain rfl : e = value := by simpa [roots] using he
      exact hP hvalue
    | block stmts =>
      obtain ⟨-, u, hall, -⟩ := h
      exact spansAll_roots hall (fun p hp => ih p (by simpa [parts] using hp)) e he
    | branch cond thenBranch elseBranch =>
      obtain ⟨-, -, u, v, hcond, -, hthen, helse⟩ := h
      cases elseBranch with
      | none =>
        rcases (by simpa [roots] using he : e = cond ∨ e ∈ thenBranch.roots) with rfl | he
        · exact hP hcond
        · exact ih thenBranch (by simp [parts]) hthen e he
      | some other =>
        rcases (by simpa [roots] using he :
          e = cond ∨ e ∈ thenBranch.roots ∨ e ∈ other.roots) with rfl | he | he
        · exact hP hcond
        · exact ih thenBranch (by simp [parts]) hthen e he
        · exact ih other (by simp [parts]) helse.2 e he
    | foreach ty name iter body =>
      obtain ⟨-, -, u, v, -, -, -, hiter, -, hbody⟩ := h
      rcases (by simpa [roots] using he : e = iter ∨ e ∈ body.roots) with rfl | he
      · exact hP hiter
      · exact ih body (by simp [parts]) hbody e he

end Stmt

end ListSugar
