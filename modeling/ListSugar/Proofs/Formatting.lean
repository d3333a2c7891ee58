/-
What a text means does not depend on how it is laid out.

Places are read off a text, handed from stage to stage and shown in messages, but nothing
is ever decided by them.  Each stage commutes with a relabelling that keeps the numbers: the
parser, the types, the pass, the list of defects, and the printer, which shows no marks at
all.  Two texts with the same tokens become the same stream once the places are forgotten,
so whatever is made of one of them is made of the other, apart from places.
-/
import ListSugar.Proofs.Convergence
import ListSugar.Proofs.Grammar.Steady
import ListSugar.Proofs.Pass.Relabeled

namespace ListSugar

/-! ### Types

The model is built from numbers and names.  So it is the same model for a relabelled
program, as long as the numbers stay.
-/

namespace Typing

variable {r : Relabel}

theorem conclude_relabel (hid : ∀ i, r.id i = i) (m : Mark) (rows : List Row) (ty : Ty) :
    conclude (r.mark m) rows ty = conclude m rows ty := by
  simp only [conclude, Relabel.mark, hid]

theorem inferAll_relabel {scope : Scope} (es : List Expr)
    (h : ∀ e ∈ es, infer scope (e.relabel r) = infer scope e) :
    inferAll scope (Expr.mapMarksAll r.mark es) = inferAll scope es := by
  induction es with
  | nil => rfl
  | cons e rest ih =>
    rw [Expr.mapMarksAll, inferAll, inferAll, h e (by simp), ih fun c hc => h c (by simp [hc])]

theorem inferPart_relabel {scope : Scope} (part : Option (List Expr))
    (h : ∀ e ∈ part.getD [], infer scope (e.relabel r) = infer scope e) :
    inferPart scope (Expr.mapMarksPart r.mark part) = inferPart scope part := by
  cases part with
  | none => rfl
  | some es => rw [Expr.mapMarksPart, inferPart, inferPart, inferAll_relabel es h]

theorem call_relabel (callee : Expr) (args : List Expr) :
    call (callee.relabel r) (Expr.mapMarksAll r.mark args) = call callee args := by
  cases callee with
  | member m receiver name => cases args <;> rfl
  | _ => rfl

/-- Types are found by numbers and names, never by places. -/
theorem infer_relabel (hid : ∀ i, r.id i = i) (scope : Scope) (e : Expr) :
    infer scope (e.relabel r) = infer scope e := by
  induction e using Expr.children_induction with
  | step e ih =>
    cases e with
    | call m callee args =>
      simp only [Expr.relabel, Expr.mapMarks, infer, conclude_relabel hid,
        ih callee (by simp [Expr.children]), call_relabel,
        inferAll_relabel args fun c hc => ih c (by simp [Expr.children, hc])]
    | index m receiver args =>
      simp only [Expr.relabel, Expr.mapMarks, infer, conclude_relabel hid,
        ih receiver (by simp [Expr.children]),
        inferAll_relabel args fun c hc => ih c (by simp [Expr.children, hc])]
    | new m ty args init =>
      simp only [Expr.relabel, Expr.mapMarks, infer, conclude_relabel hid,
        inferPart_relabel args fun c hc => ih c (by simp [Expr.children, hc]),
        inferPart_relabel init fun c hc => ih c (by simp [Expr.children, hc])]
    | _ => simp_all [Expr.mapMarks, infer, conclude_relabel hid, Expr.children]

theorem walkAll_relabel {stmts : List Stmt}
    (h : ∀ p ∈ stmts, ∀ scope, walk scope (p.relabel r) = walk scope p) (scope : Scope) :
    walkAll scope (stmts.map (Stmt.relabel r)) = walkAll scope stmts := by
  induction stmts generalizing scope with
  | nil => rfl
  | cons first rest ih =>
    rw [List.map_cons, walkAll, walkAll, h first (by simp), ih fun p hp => h p (by simp [hp])]

theorem walk_relabel (hid : ∀ i, r.id i = i) (st : Stmt) : ∀ scope, walk scope (st.relabel r) = walk scope st := by
  have hinfer := infer_relabel hid
  induction st using Stmt.parts_induction with
  | step st ih =>
    intro scope
    cases st with
    | declare ty name init line =>
      cases init <;> simp [Stmt.relabel, Stmt.mapExprs, walk, hinfer]
    | assign target value => simp [Stmt.relabel, Stmt.mapExprs, walk, hinfer]
    | expr value => simp [Stmt.relabel, Stmt.mapExprs, walk, hinfer]
    | block stmts =>
      have hall := walkAll_relabel fun p hp => ih p (by simpa [Stmt.parts] using hp)
      simp only [Stmt.relabel_block, walk, inBlock, hall]
    | branch cond thenBranch elseBranch =>
      have hthen := ih thenBranch (by simp [Stmt.parts])
      rw [Stmt.relabel_branch]
      cases elseBranch with
      | none => simp [walk, inBlock, hinfer, hthen]
      | some other =>
        have helse := ih other (by simp [Stmt.parts])
        simp [walk, inBlock, hinfer, hthen, helse]
    | foreach ty name iter body =>
      have hbody := ih body (by simp [Stmt.parts])
      show walk scope (.foreach ty name (iter.relabel r) (body.relabel r)) = _
      simp [walk, inBlock, hinfer, hbody]

end Typing

theorem Model.ofProgram_relabel {r : Relabel} (hid : ∀ i, r.id i = i) (p : Program) :
    Model.ofProgram (p.relabel r) = Model.ofProgram p := by
  unfold ofProgram
  show ofRows (Typing.walkAll .empty (p.stmts.map (Stmt.relabel r))).rows = _
  rw [Typing.walkAll_relabel fun st _ => Typing.walk_relabel hid st]

/-! ### Runs -/

/-- What a run gives, with its numbers and places changed.  The text has none. -/
def Desugared.relabel (r : Relabel) (d : Desugared) : Desugared where
  program := d.program.relabel r
  report := d.report.relabel r
  diagnostics := d.diagnostics.map (Diagnostic.relabel r)
  output := d.output
  typedNodes := d.typedNodes
  visits := d.visits.map (Desugar.Visit.relabel r)

theorem Program.render_relabel (r : Relabel) (p : Program) : (p.relabel r).render = p.render := by
  refine render_eq_of_bare ?_
  show (p.stmts.map (Stmt.relabel r)).map Stmt.bare = _
  rw [List.map_map]
  exact List.map_congr_left fun st _ => st.bare_relabel r

/-- **A relabelling that keeps the numbers passes through a run.** -/
theorem Program.desugar_relabel {r : Relabel} (hid : ∀ i, r.id i = i) (p : Program)
    (options : Options) : (p.relabel r).desugar options = (p.desugar options).relabel r := by
  have hagrees : Desugar.Setting.Agrees r ⟨options, (Model.ofProgram p).typeOf⟩
      ⟨options, (Model.ofProgram p).typeOf⟩ p.nodes := by
    refine ⟨rfl, fun n _ => ?_⟩
    show (Model.ofProgram p).typeOfId (n.relabel r).id = _
    rw [Expr.id_relabel, hid]
    rfl
  have hwalk := Desugar.Setting.stmts_relabel hagrees
    (show r.StepsFrom p.nextId from fun m _ => by rw [hid, hid])
  have hresult := diagnostics_relabel r (p.desugar options).program
  have htext := render_relabel r (p.desugar options).program
  unfold desugar at hresult htext ⊢
  rw [Model.ofProgram_relabel hid]
  show Desugared.mk _ _ _ _ _ _ = _
  simp only [relabel] at hwalk hresult htext ⊢
  simp only [hwalk, Desugar.Walked.relabel, Desugared.relabel, Desugar.sitesOf_relabel,
    Report.relabel, hresult, htext, relabel]

/-! ### Texts with the same tokens

When the places are forgotten, a stream is a list of kinds of tokens.  Two texts with the
same tokens then give one stream, and what is made of it is what either of them gives with
its places forgotten.
-/

/-- A stream without places is made of the kinds of the tokens alone. -/
theorem TokenStream.ofTokens_unplaced (found : List Located) :
    (ofTokens found).relabel .unplaced
      = ⟨((found.map Located.token).takeWhile (· ≠ .eof)).map (⟨·, .start⟩), .start, 0⟩ := by
  have hunread : (found.takeWhile (·.token ≠ .eof)).map (Located.relabel .unplaced)
      = ((found.map Located.token).takeWhile (· ≠ .eof)).map (⟨·, .start⟩) := by
    rw [List.takeWhile_map, List.map_map]
    rfl
  show TokenStream.mk _ _ _ = _
  rw [← hunread]
  rfl

theorem Program.ofTokens_of_same_kinds {found found' : List Located}
    (h : found.map Located.token = found'.map Located.token) :
    (∃ e e', ofTokens found = .error e ∧ ofTokens found' = .error e' ∧ e.fault = e'.fault) ∨
      ∃ p p', ofTokens found = .ok p ∧ ofTokens found' = .ok p' ∧
        p.relabel .unplaced = p'.relabel .unplaced := by
  have hstream : (TokenStream.ofTokens found).relabel .unplaced
      = (TokenStream.ofTokens found').relabel .unplaced := by
    rw [TokenStream.ofTokens_unplaced, TokenStream.ofTokens_unplaced, h]
  have hsteady : Parser.Steady .unplaced (Program.relabel .unplaced) Parser.program
      Parser.program := Parser.steady_program fun _ => rfl
  have hsame := hsteady.same (TokenStream.ofTokens found)
  rw [hstream, hsteady.same (TokenStream.ofTokens found')] at hsame
  unfold ofTokens
  cases hp : Parser.program (TokenStream.ofTokens found) with
  | ok p t =>
    cases hp' : Parser.program (TokenStream.ofTokens found') with
    | ok p' t' =>
      rw [hp, hp'] at hsame
      exact Or.inr ⟨p, p', rfl, rfl, (EStateM.Result.ok.inj hsame).1.symm⟩
    | error e' t' =>
      rw [hp, hp'] at hsame
      cases hsame
  | error e t =>
    cases hp' : Parser.program (TokenStream.ofTokens found') with
    | ok p' t' =>
      rw [hp, hp'] at hsame
      cases hsame
    | error e' t' =>
      rw [hp, hp'] at hsame
      have herror := (EStateM.Result.error.inj hsame).1
      exact Or.inl ⟨e, e', rfl, rfl, (congrArg ParseError.fault herror).symm⟩

theorem map_defect_relabel (r : Relabel) (ds : List Diagnostic) :
    (ds.map (Diagnostic.relabel r)).map Diagnostic.defect = ds.map Diagnostic.defect := by
  rw [List.map_map]
  rfl

/-- **Layout and comments do not change the result.**  Two texts with the same tokens, in
whatever places, are refused for the same reason, or they give the same text, reports and
programs that are equal apart from places, and the same defects in the same order. -/
theorem desugar_ignores_layout {source source' : String} {found found' : List Located}
    (h : tokenize source = .ok found) (h' : tokenize source' = .ok found')
    (hkinds : found.map Located.token = found'.map Located.token) (options : Options) :
    (∃ e e', desugar source options = .error (.parse e) ∧
        desugar source' options = .error (.parse e') ∧ e.fault = e'.fault) ∨
      ∃ d d', desugar source options = .ok d ∧ desugar source' options = .ok d' ∧
        d.output = d'.output ∧
        d.report.relabel .unplaced = d'.report.relabel .unplaced ∧
        d.diagnostics.map Diagnostic.defect = d'.diagnostics.map Diagnostic.defect ∧
        d.program.relabel .unplaced = d'.program.relabel .unplaced := by
  have htext : ∀ {text tokens}, tokenize text = .ok tokens →
      desugar text options
        = ((Program.ofTokens tokens).mapError .parse).map (·.desugar options) := by
    intro text tokens htext
    unfold desugar Program.ofText
    rw [htext]
  rw [htext h, htext h']
  rcases Program.ofTokens_of_same_kinds hkinds with ⟨e, e', he, he', hfault⟩ | ⟨p, p', hp, hp', heq⟩
  · rw [he, he']
    exact Or.inl ⟨e, e', rfl, rfl, hfault⟩
  · rw [hp, hp']
    have hrun : (p.desugar options).relabel .unplaced = (p'.desugar options).relabel .unplaced := by
      rw [← Program.desugar_relabel (fun _ => rfl), heq, Program.desugar_relabel fun _ => rfl]
    have houtput := congrArg Desugared.output hrun
    have hreport := congrArg Desugared.report hrun
    have hdefects := congrArg (fun d => d.diagnostics.map Diagnostic.defect) hrun
    have hprogram := congrArg Desugared.program hrun
    simp only [Desugared.relabel, map_defect_relabel] at houtput hreport hdefects hprogram
    exact Or.inr ⟨_, _, rfl, rfl, houtput, hreport, hdefects, hprogram⟩

/-- A space, a comment and a line break more. -/
theorem desugar_ignores_layout_comment : ∃ d d', desugar "x=[<1>];" {} = .ok d ∧
    desugar "x = /* one */\n[<1>];" {} = .ok d' ∧ d.output = d'.output ∧
      d.program.relabel .unplaced = d'.program.relabel .unplaced := by
  have h : tokenize "x=[<1>];" = .ok [⟨.ident "x", ⟨1, 1⟩⟩, ⟨.symbol .assign, ⟨1, 2⟩⟩,
      ⟨.symbol .lBracket, ⟨1, 3⟩⟩, ⟨.symbol .lt, ⟨1, 4⟩⟩, ⟨.int 1, ⟨1, 5⟩⟩,
      ⟨.symbol .gt, ⟨1, 6⟩⟩, ⟨.symbol .rBracket, ⟨1, 7⟩⟩, ⟨.symbol .semi, ⟨1, 8⟩⟩,
      ⟨.eof, ⟨1, 9⟩⟩] := by
    decide +kernel
  have h' : tokenize "x = /* one */\n[<1>];" = .ok [⟨.ident "x", ⟨1, 1⟩⟩,
      ⟨.symbol .assign, ⟨1, 3⟩⟩, ⟨.symbol .lBracket, ⟨2, 1⟩⟩, ⟨.symbol .lt, ⟨2, 2⟩⟩,
      ⟨.int 1, ⟨2, 3⟩⟩, ⟨.symbol .gt, ⟨2, 4⟩⟩, ⟨.symbol .rBracket, ⟨2, 5⟩⟩,
      ⟨.symbol .semi, ⟨2, 6⟩⟩, ⟨.eof, ⟨2, 7⟩⟩] := by
    decide +kernel
  rcases desugar_ignores_layout h h' rfl {} with ⟨e, e', he, -⟩ | ⟨d, d', hd, hd', ho, -, -, hp⟩
  · have hok : (desugar "x=[<1>];" {}).isOk = true := by decide +kernel
    rw [he] at hok
    cases hok
  · exact ⟨d, d', hd, hd', ho, hp⟩

end ListSugar
