/-
The lines of a program hold the tokens of its statements.

A line ends every piece on it, so the text of a statement puts its tokens in front of
those of any text at all, and the texts of statements can be put one after the other.
How deep a statement stands is only white space.
-/
import ListSugar.Program.Printer
import ListSugar.Proofs.Grammar.Statements
import ListSugar.Proofs.Layout.Rendered

namespace ListSugar

/-- The text puts the tokens in front of those of any text. -/
def LexedLines (text : String) (us : List Token) : Prop :=
  ∀ ⦃rest : List Char⦄ ⦃ts : List Token⦄, Lexes rest ts → Lexes (text.toList ++ rest) (us ++ ts)

theorem LexedLines.empty : LexedLines "" [] := fun _ _ h => h

theorem LexedLines.append {a b : String} {us vs : List Token} (ha : LexedLines a us)
    (hb : LexedLines b vs) : LexedLines (a ++ b) (us ++ vs) := by
  intro rest ts hts
  rw [String.toList_append, List.append_assoc, List.append_assoc]
  exact ha (hb hts)

theorem Lexes.spaces (n : Nat) {rest : List Char} {ts : List Token} (h : Lexes rest ts) :
    Lexes (List.replicate n ' ' ++ rest) ts := by
  induction n with
  | zero => exact h
  | succ n ih => exact ih.space

/-- A line holds the tokens of its text, however deep it stands. -/
theorem LexedLines.line {text : String} {us : List Token} (h : Lexed text us) (depth : Nat) :
    LexedLines (Stmt.line depth text) us := by
  intro rest ts hts
  have hline : (Stmt.line depth text).toList ++ rest
      = List.replicate (4 * depth) ' ' ++ (text.toList ++ '\n' :: rest) := by
    simp [Stmt.line]
  rw [hline]
  exact (h (.separator (by decide)) (hts.white (by decide))).spaces _

namespace Stmt

/-- The head of a declaration: its type or `var`, and the name. -/
theorem lexes_head {ty : Option TypeExpr} {name : String}
    (hres : ∀ ty' ∈ ty, ty'.isResolved = true)
    (hheads : ∀ t ∈ declaredTokens ty ++ [.ident name], t.Scanned) {rest : List Char}
    {ts : List Token} (hrest : Closes rest) (hts : Lexes rest ts) :
    Lexes ((typeOrVar ty).toList ++ ' ' :: (name.toList ++ rest))
      (declaredTokens ty ++ .ident name :: ts) := by
  have hname : IsName name := hheads (.ident name) (by simp)
  have htail := (hts.ident hname hrest).space
  cases ty with
  | none => exact htail.keyword .var (.separator (by decide))
  | some ty =>
    have hnamed : ty.Named := fun x hx =>
      hheads (.ident x) (List.mem_append_left _ hx)
    exact TypeExpr.lexed (hres ty rfl) hnamed (.separator (by decide)) htail

/-- The text of the statement holds the tokens of the trimmed statement. -/
def Written (st : Stmt) : Prop :=
  ∀ depth, ∃ us, st.trimmed.Spells us ∧ LexedLines (st.renderAt depth) us

theorem written_declare {ty : Option TypeExpr} {name : String} {init : Option Expr} {line : Nat}
    (hres : ∀ ty' ∈ ty, ty'.isResolved = true)
    (hheads : ∀ t ∈ declaredTokens ty ++ [.ident name], t.Scanned)
    (hinit : ∀ e ∈ init, e.Written) : (declare ty name init line).Written := by
  intro depth
  cases init with
  | none =>
    refine ⟨_, ⟨[], rfl, rfl⟩, ?_⟩
    rw [renderAt]
    refine .line (fun rest ts hrest hts => ?_) depth
    have hhead := lexes_head hres hheads (.separator (by decide)) (Lexes.symbol .semi trivial hts)
    simpa [Symbol.spelling] using hhead
  | some e =>
    obtain ⟨us, hus, hlexed⟩ := hinit e rfl
    refine ⟨_, ⟨_, ⟨us, hus, rfl⟩, rfl⟩, ?_⟩
    rw [renderAt]
    refine .line (fun rest ts hrest hts => ?_) depth
    have hvalue := hlexed (.separator (by decide)) (Lexes.symbol .semi trivial hts)
    have hassign := Lexes.symbol .assign (by simp [Symbol.Ends]) hvalue.space
    have hhead := lexes_head hres hheads (.separator (by decide)) hassign.space
    simpa [Symbol.spelling] using hhead

theorem written_assign {target value : Expr} (htarget : target.Written) (hvalue : value.Written) :
    (assign target value).Written := by
  intro depth
  obtain ⟨us, hus, hlexed⟩ := htarget
  obtain ⟨vs, hvs, hlexed'⟩ := hvalue
  refine ⟨_, ⟨us, vs, hus, hvs, rfl⟩, ?_⟩
  rw [renderAt]
  refine .line (fun rest ts hrest hts => ?_) depth
  have hright := hlexed' (.separator (by decide)) (Lexes.symbol .semi trivial hts)
  have hassign := Lexes.symbol .assign (by simp [Symbol.Ends]) hright.space
  have hall := hlexed (.separator (by decide)) hassign.space
  simpa [Symbol.spelling] using hall

theorem written_expr {value : Expr} (hvalue : value.Written) : (expr value).Written := by
  intro depth
  obtain ⟨us, hus, hlexed⟩ := hvalue
  refine ⟨_, ⟨us, hus, rfl⟩, ?_⟩
  rw [renderAt]
  refine .line (fun rest ts hrest hts => ?_) depth
  have hall := hlexed (.separator (by decide)) (Lexes.symbol .semi trivial hts)
  simpa [Symbol.spelling] using hall

theorem lexedLines_all {stmts : List Stmt} (h : ∀ p ∈ stmts, p.Written) (depth : Nat) :
    ∃ us, SpellsAll (stmts.map trimmed) us ∧ LexedLines (renderAllAt depth stmts) us := by
  induction stmts with
  | nil => exact ⟨[], rfl, .empty⟩
  | cons first others ih =>
    obtain ⟨us, hus, hlexed⟩ := h first (by simp) depth
    obtain ⟨vs, hvs, hlexed'⟩ := ih fun p hp => h p (by simp [hp])
    exact ⟨us ++ vs, ⟨us, vs, hus, hvs, rfl⟩, hlexed.append hlexed'⟩

/-- A line with nothing but one symbol. -/
theorem lexed_symbol {sign : Symbol} {text : String} (htext : text.toList = sign.spelling) :
    Lexed text [.symbol sign] := by
  intro rest ts hrest hts
  rw [htext]
  exact Lexes.symbol sign (hrest.ends sign) hts

theorem written_block {stmts : List Stmt} (h : ∀ p ∈ stmts, p.Written) :
    (block stmts).Written := by
  intro depth
  obtain ⟨us, hus, hlexed⟩ := lexedLines_all h (depth + 1)
  refine ⟨.symbol .lBrace :: (us ++ [.symbol .rBrace]), ?_, ?_⟩
  · rw [trimmed_block]
    exact ⟨us, hus, rfl⟩
  · rw [renderAt]
    have hopen : Lexed "\x7b" [.symbol .lBrace] := lexed_symbol rfl
    have hclose : Lexed "\x7d" [.symbol .rBrace] := lexed_symbol rfl
    simpa using ((LexedLines.line hopen depth).append hlexed).append (.line hclose depth)

theorem written_branch {cond : Expr} {thenBranch : Stmt} {elseBranch : Option Stmt}
    (hcond : cond.Written) (hthen : thenBranch.Written)
    (helse : ∀ other ∈ elseBranch, other.Written) :
    (branch cond thenBranch elseBranch).Written := by
  intro depth
  obtain ⟨us, hus, hlexed⟩ := hcond
  obtain ⟨vs, hvs, hlines⟩ := hthen (bodyDepth depth thenBranch)
  have hif : Lexed ("if (" ++ cond.render ++ ")")
      (.keyword .if_ :: .symbol .lParen :: (us ++ [.symbol .rParen])) := by
    intro rest ts _ hts
    have hinner := hlexed (.separator (by decide)) (Lexes.symbol .rParen trivial hts)
    have hopen := Lexes.symbol .lParen trivial hinner
    have hall := hopen.space.keyword .if_ (.separator (by decide))
    simpa [Symbol.spelling, Keyword.spelling] using hall
  have hhead := (LexedLines.line hif depth).append hlines
  cases elseBranch with
  | none =>
    refine ⟨_, ⟨us, vs, [], hus, hvs, rfl, rfl⟩, ?_⟩
    rw [renderAt]
    simpa using hhead
  | some other =>
    obtain ⟨ws, hws, hlines'⟩ := helse other rfl (bodyDepth depth other)
    have hword : Lexed "else" [.keyword .else_] := fun rest ts hrest hts =>
      hts.keyword .else_ hrest
    refine ⟨_, ⟨us, vs, _, hus, hvs, ⟨ws, hws, rfl⟩, rfl⟩, ?_⟩
    rw [renderAt]
    simpa using hhead.append ((LexedLines.line hword depth).append hlines')

theorem written_foreach {ty : Option TypeExpr} {name : String} {iter : Expr} {body : Stmt}
    (hres : ∀ ty' ∈ ty, ty'.isResolved = true)
    (hheads : ∀ t ∈ declaredTokens ty ++ [.ident name], t.Scanned) (hiter : iter.Written)
    (hbody : body.Written) : (foreach ty name iter body).Written := by
  intro depth
  obtain ⟨us, hus, hlexed⟩ := hiter
  obtain ⟨vs, hvs, hlines⟩ := hbody (bodyDepth depth body)
  have hhead : Lexed ("foreach (" ++ typeOrVar ty ++ " " ++ name ++ " in " ++ iter.render ++ ")")
      (.keyword .foreach :: .symbol .lParen :: (declaredTokens ty ++
        .ident name :: .keyword .in_ :: (us ++ [.symbol .rParen]))) := by
    intro rest ts _ hts
    have hinner := hlexed (.separator (by decide)) (Lexes.symbol .rParen trivial hts)
    have hin := hinner.space.keyword .in_ (.separator (by decide))
    have hvariable := lexes_head hres hheads (.separator (by decide)) hin.space
    have hopen := Lexes.symbol .lParen trivial hvariable
    have hall := hopen.space.keyword .foreach (.separator (by decide))
    simpa [Symbol.spelling, Keyword.spelling] using hall
  refine ⟨_, ⟨us, vs, hus, hvs, rfl⟩, ?_⟩
  rw [renderAt]
  simpa using (LexedLines.line hhead depth).append hlines

/-- **The lines of a well-formed statement hold the tokens of the trimmed statement.** -/
theorem written {st : Stmt} : st.WellFormed → (∀ e ∈ st.roots, e.Resolved) →
    (∀ e ∈ st.roots, e.Writable) → (∀ t ∈ st.heads, t.Scanned) → st.Written := by
  induction st using parts_induction with
  | step st ih =>
    intro hwf hres hwrite hheads
    have hparts : ∀ p ∈ st.parts, p.WellFormed → p.Written := fun p hp hwfp =>
      ih p hp hwfp (fun e he => hres e (mem_roots_of_mem_parts hp he))
        (fun e he => hwrite e (mem_roots_of_mem_parts hp he))
        fun t ht => hheads t (mem_heads_of_mem_parts hp ht)
    have hroots : ∀ e ∈ st.roots, e.WellFormed → e.Written := fun e he hwfe =>
      Expr.written hwfe (hres e he) (hwrite e he)
    cases st with
    | declare ty name init line =>
      refine written_declare hwf.1 hheads fun e he => ?_
      exact hroots e (by simpa [roots] using he) (hwf.2.2 e he)
    | assign target value =>
      exact written_assign (hroots target (by simp [roots]) hwf.1)
        (hroots value (by simp [roots]) hwf.2.1)
    | expr value => exact written_expr (hroots value (by simp [roots]) hwf.1)
    | block stmts =>
      exact written_block fun p hp => hparts p hp (allWellFormed_iff.mp hwf p hp)
    | branch cond thenBranch elseBranch =>
      refine written_branch (hroots cond (by simp [roots_branch]) hwf.1)
        (hparts thenBranch (by simp [parts]) hwf.2.1) fun other hother => ?_
      obtain rfl : elseBranch = some other := hother
      exact hparts other (by simp [parts]) hwf.2.2.2
    | foreach ty name iter body =>
      refine written_foreach hwf.1 (fun t ht => hheads t ?_)
        (hroots iter (by simp [roots]) hwf.2.1) (hparts body (by simp [parts]) hwf.2.2)
      rw [heads]
      simp only [List.mem_append, List.mem_cons, List.not_mem_nil, or_false] at ht ⊢
      rcases ht with ht | ht
      · exact Or.inl ht
      · exact Or.inr (Or.inl ht)

end Stmt

end ListSugar
