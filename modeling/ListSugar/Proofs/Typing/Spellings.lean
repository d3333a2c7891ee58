/-
The spelling of a type.

A type is shown in reports, spelled in constructions, written into the output and read from a
text.  These agree: what reports show is what a construction of the type is written with, and
behind `new` it is read as the type that was spelled.  The type that was spelled means the
type it came from, even where the source wrote it with the longer name of a predefined type.
-/
import ListSugar.Proofs.RoundTrip
import ListSugar.Proofs.Typing.Expanded
import ListSugar.Proofs.Typing.Resolved

namespace ListSugar

/-- Nothing goes on behind the last token. -/
theorem Token.stops_eof : Token.eof.Stops 0 :=
  ⟨rfl, by simp [Level.all, Level.disjunction, Level.conjunction, Level.equality,
    Level.comparison, Level.sum, Level.product]⟩

/-! ### Names of a written type -/

namespace TypeExpr

mutual

/-- The names in a written type. -/
def names : TypeExpr → List String
  | .named name args => name :: namesOfAll args
  | .array element => element.names
  | .unresolved => []

/-- The names in several written types. -/
def namesOfAll : List TypeExpr → List String
  | [] => []
  | ty :: rest => ty.names ++ namesOfAll rest

end

theorem namesOfAll_eq (tys : List TypeExpr) : namesOfAll tys = tys.flatMap names := by
  induction tys with
  | nil => rfl
  | cons ty rest ih => rw [namesOfAll, ih, List.flatMap_cons]

/-- A type whose names can be read has tokens that can be read. -/
theorem named_of_names {ty : TypeExpr} : (∀ name ∈ ty.names, IsName name) → ty.Named := by
  induction ty using args_induction with
  | named name args ih =>
    intro h
    rw [named_iff]
    refine ⟨h name (by simp [names]), fun a ha => ih a ha fun x hx => h x ?_⟩
    rw [names, namesOfAll_eq, List.mem_cons, List.mem_flatMap]
    exact Or.inr ⟨a, ha, hx⟩
  | array element ih =>
    intro h
    exact Ty.named_array.mpr (ih h)
  | unresolved =>
    intro _ x hx
    cases hx

/-! ### Types behind `new`

A type by itself is no program, so it is read back where a program may write it: between
`new` and empty parentheses.  The whole text has to be read, up to its end.
-/

/-- Between `new` and empty parentheses the text is read as the type, to the last token. -/
def ReadFrom (ty : TypeExpr) (text : String) : Prop :=
  ∃ found m rest, tokenize ("new " ++ text ++ "()") = .ok found ∧
    Parser.expr (.ofTokens found) = .ok (.new m ty (some []) none) rest ∧ rest.kinds = []

/-- A construction of the type without arguments, before it is numbered. -/
def constructed (ty : TypeExpr) : Expr := .new .blank ty (some []) none

theorem wellFormed_constructed (ty : TypeExpr) : ty.constructed.WellFormed :=
  Expr.wellFormed_iff.mpr ⟨⟨Or.inl rfl, rfl⟩, by simp [constructed, Expr.children]⟩

theorem resolved_constructed {ty : TypeExpr} (h : ty.isResolved = true) :
    ty.constructed.Resolved :=
  Expr.resolved_iff.mpr ⟨h, by simp [constructed, Expr.children]⟩

theorem writable_constructed {ty : TypeExpr} (h : ty.Named) : ty.constructed.Writable := by
  intro t ht
  have hwords : t = .keyword .new ∨ t ∈ ty.tokens := by
    obtain ⟨n, hn, hword⟩ := ht
    obtain rfl : n = ty.constructed := by
      simpa [constructed, Expr.nodes, Expr.nodesOfPart, Expr.nodesOfAll] using hn
    simpa [constructed, Expr.words] using hword
  rcases hwords with rfl | ht
  · exact ⟨trivial, fun value hvalue => by cases hvalue⟩
  · refine ⟨Program.isTypeToken_scanned h t ht, ?_⟩
    rintro value rfl
    have htype := ty.isTypeToken_of_mem_tokens _ ht
    cases htype

theorem render_constructed (ty : TypeExpr) :
    ty.constructed.render = "new " ++ ty.render ++ "()" := by
  rw [constructed, Expr.render_new]
  simp [Expr.argumentsText, Expr.initializerText, Expr.renderAll, Text.listing,
    String.append_assoc]

/-- A tree is a construction of the type without arguments if it is one up to its mark. -/
theorem eq_new_of_bare {ty : TypeExpr} {e : Expr} (h : e.bare = ty.constructed.bare) :
    ∃ m, e = .new m ty (some []) none := by
  cases e with
  | new m ty' args init =>
    simp only [constructed, Expr.bare, Expr.new.injEq, true_and] at h
    obtain ⟨rfl, hargs, hinit⟩ := h
    cases init with
    | some found => cases hinit
    | none =>
      rcases args with _ | _ | ⟨first, rest⟩
      · cases hargs
      · exact ⟨m, rfl⟩
      · cases hargs
  | _ => simp [constructed, Expr.bare] at h

/-- **The text of a resolved type is read as the type.** -/
theorem readFrom_render {ty : TypeExpr} (hres : ty.isResolved = true) (hnamed : ty.Named) :
    ty.ReadFrom ty.render := by
  have hwf := ty.wellFormed_constructed
  have hresolved := resolved_constructed hres
  obtain ⟨us, hspells, hlexed⟩ := Expr.written hwf hresolved (writable_constructed hnamed)
  have hlexes : Lexes ("new " ++ ty.render ++ "()").toList us := by
    have h := hlexed .nil .nil
    rwa [List.append_nil, List.append_nil, render_constructed] at h
  obtain ⟨found, hfound, heq⟩ := tokenize_eq_ok_iff.mpr ⟨us, hlexes, rfl⟩
  have hkinds := TokenStream.kinds_ofTokens heq hlexes.ne_eof
  have hstands : ty.constructed.Stands (.ofTokens found) [] :=
    ⟨⟨us, hspells, by rw [hkinds, List.append_nil]⟩, (fun h => by cases h), by simp⟩
  obtain ⟨e', rest, hparse, hbare, hrest⟩ := Expr.succeeds_expr hwf hresolved hstands
    Token.stops_eof
  obtain ⟨m, rfl⟩ := eq_new_of_bare hbare
  exact ⟨found, m, rest, hfound, hparse, hrest⟩

end TypeExpr

namespace Ty

/-! ### What reports show -/

mutual

/-- **Reports show a type as constructions spell it.** -/
theorem text_eq_render : ∀ ty : Ty, ty.text = ty.toTypeExpr.render
  | .int => rfl
  | .double => rfl
  | .bool => rfl
  | .char => rfl
  | .str => rfl
  | .object => rfl
  | .list inner => by
    simp [text, toTypeExpr, TypeExpr.render, TypeExpr.renderAll, Text.listing, text_eq_render inner]
  | .array inner => by simp [text, toTypeExpr, TypeExpr.render, text_eq_render inner]
  | .named name [] => rfl
  | .named name (first :: rest) => by
    simp [text, toTypeExpr, toTypeExprs, TypeExpr.render, text_eq_render first,
      textAll_eq_renderAll rest]
  | .unknown => rfl

theorem textAll_eq_renderAll : ∀ tys : List Ty, textAll tys = TypeExpr.renderAll (toTypeExprs tys)
  | [] => rfl
  | ty :: rest => by
    rw [textAll, toTypeExprs, TypeExpr.renderAll, text_eq_render ty, textAll_eq_renderAll rest]

end

end Ty

/-- **A type that is spelled is read back as the same type.**  Take a written type without a
gap, all of whose names are read as names, and the type that it means.  Reports show that type
with the text that a construction of it has, behind `new` this text is read as the spelling of
the type, and the spelling means the same type again.  The text of the type as it was written
is read as it was written. -/
theorem spelled_type_reads_back {te : TypeExpr} (hresolved : te.isResolved = true)
    (hnames : ∀ name ∈ te.names, ∃ found, tokenize name = .ok found ∧
      found.map Located.token = [.ident name, .eof]) :
    let ty := Ty.ofTypeExpr te
    ty.text = ty.toTypeExpr.render ∧ ty.toTypeExpr.ReadFrom ty.text ∧
      Ty.ofTypeExpr ty.toTypeExpr = ty ∧ te.ReadFrom te.render := by
  intro ty
  have hnamed : te.Named :=
    TypeExpr.named_of_names fun name hname => isName_of_tokenize (hnames name hname)
  have htext : ty.text = ty.toTypeExpr.render := ty.text_eq_render
  refine ⟨htext, ?_, Ty.canonical_ofTypeExpr te, TypeExpr.readFrom_render hresolved hnamed⟩
  rw [htext]
  exact TypeExpr.readFrom_render (Ty.isResolved_ofTypeExpr te hresolved)
    (Ty.named_ofTypeExpr te hnamed)

/-- The written type `Dictionary<String, List<Int32[]>>`. -/
def TypeExpr.dictionary : TypeExpr :=
  .named "Dictionary" [.simple "String", .named "List" [.array (.simple "Int32")]]

/-- A written type with another one inside is spelled with the short names, and both texts are
read as that type. -/
theorem spelled_type_reads_back_dictionary :
    (Ty.ofTypeExpr TypeExpr.dictionary).text = "Dictionary<string, List<int[]>>" ∧
      (Ty.ofTypeExpr TypeExpr.dictionary).toTypeExpr.ReadFrom "Dictionary<string, List<int[]>>" ∧
      TypeExpr.dictionary.ReadFrom "Dictionary<String, List<Int32[]>>" := by
  have hnames : ∀ name ∈ TypeExpr.dictionary.names, ∃ found, tokenize name = .ok found ∧
      found.map Located.token = [.ident name, .eof] := by
    have hread : ∀ name ∈ ["Dictionary", "String", "List", "Int32"],
        ∃ found, tokenize name = .ok found ∧ found.map Located.token = [.ident name, .eof] := by
      simp only [List.forall_mem_cons]
      exact ⟨map_eq_ok_iff.mp (by decide +kernel), map_eq_ok_iff.mp (by decide +kernel),
        map_eq_ok_iff.mp (by decide +kernel), map_eq_ok_iff.mp (by decide +kernel), by simp⟩
    exact hread
  have hresolved : TypeExpr.dictionary.isResolved = true := rfl
  obtain ⟨-, hspelled, -, hwritten⟩ := spelled_type_reads_back hresolved hnames
  exact ⟨by decide, hspelled, hwritten⟩

end ListSugar
