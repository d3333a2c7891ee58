/-
The output of a run is read back as the program of the run.

A literal is expanded into a construction whose type is spelled with names of the
source, names of predefined types and the name of the container, and all of them are
names that can be read.  So every word of the expanded program can be written; the
program is readable because the one it was made from is; and what is read back from its
text is the program itself, except that an initializer loses a missing element at its
end.
-/
import ListSugar.Proofs.Layout.Lines
import ListSugar.Proofs.Pass.Rewrites
import ListSugar.Proofs.Texts
import ListSugar.Proofs.Typing.Closed

namespace ListSugar

/-! ### Types whose names can be read -/

namespace Ty

/-- Every name in the spelling of the type can be read. -/
def Named (ty : Ty) : Prop := ty.toTypeExpr.Named

theorem named_simple {name : String} (h : IsName name) : (TypeExpr.simple name).Named :=
  TypeExpr.named_iff.mpr ⟨h, by simp⟩

theorem named_array {ty : TypeExpr} : (TypeExpr.array ty).Named ↔ ty.Named := by
  unfold TypeExpr.Named
  simp [TypeExpr.tokens]

/-- The names of predefined types and of element types can be read. -/
theorem closed_named : Closed Named where
  int := named_simple (by decide)
  double := named_simple (by decide)
  bool := named_simple (by decide)
  char := named_simple (by decide)
  str := named_simple (by decide)
  unknown := fun x hx => by cases hx
  element := by
    intro ty h
    cases ty with
    | list inner => exact (TypeExpr.named_iff.mp h).2 inner.toTypeExpr (by simp)
    | array inner => exact named_array.mp h
    | str => exact named_simple (by decide)
    | _ => exact fun x hx => by cases hx

theorem named_ofName {name : String} (h : IsName name) : (ofName name).Named := by
  unfold ofName
  split <;> first | exact named_simple h | exact named_simple (by decide)

theorem named_ofGeneric {name : String} (h : IsName name) {args : List Ty}
    (hargs : ∀ a ∈ args, a.Named) : (ofGeneric name args).Named := by
  have hother : (named name args).Named := by
    refine TypeExpr.named_iff.mpr ⟨h, fun a ha => ?_⟩
    rw [toTypeExprs_eq] at ha
    obtain ⟨b, hb, rfl⟩ := List.mem_map.mp ha
    exact hargs b hb
  match args with
  | [] => exact named_ofName h
  | [arg] =>
    by_cases hname : name = "List"
    · rw [ofGeneric, if_pos hname]
      refine TypeExpr.named_iff.mpr ⟨by decide, fun a ha => ?_⟩
      obtain rfl : a = arg.toTypeExpr := by simpa using ha
      exact hargs arg (by simp)
    · rw [ofGeneric, if_neg hname]
      exact hother
  | _ :: _ :: _ => exact hother

/-- A type that is written with readable names is spelled with readable names. -/
theorem named_ofTypeExpr (ty : TypeExpr) : ty.Named → (ofTypeExpr ty).Named := by
  induction ty using TypeExpr.args_induction with
  | named name args ih =>
    intro h
    obtain ⟨hname, hargs⟩ := TypeExpr.named_iff.mp h
    rw [ofTypeExpr, ofTypeExprs_eq]
    refine named_ofGeneric hname fun a ha => ?_
    obtain ⟨b, hb, rfl⟩ := List.mem_map.mp ha
    exact ih b hb (hargs b hb)
  | array element ih =>
    intro h
    exact named_array.mpr (ih (named_array.mp h))
  | unresolved => exact fun _ x hx => by cases hx

end Ty

/-! ### The words of an expanded program

What is written must be cut into the words that were meant.  The words of the source are
read again as they were, and the new ones come from spelled types and the name of the
container, so the container has to be a name.
-/

theorem Stmt.mem_headsOfAll_of_types : ∀ {stmts : List Stmt},
    (∀ p ∈ stmts, ∀ ty ∈ p.types, ∀ t ∈ ty.tokens, t ∈ p.heads) →
    ∀ ty ∈ typesOfAll stmts, ∀ t ∈ ty.tokens, t ∈ headsOfAll stmts := by
  intro stmts h ty hty t ht
  rw [typesOfAll_eq, List.mem_flatMap] at hty
  obtain ⟨p, hp, hty⟩ := hty
  rw [headsOfAll_eq, List.mem_flatMap]
  exact ⟨p, hp, h p hp ty hty t ht⟩

/-- The tokens of a declared type are among those that the statement declares. -/
theorem Stmt.mem_heads_of_types (st : Stmt) :
    ∀ ty ∈ st.types, ∀ t ∈ ty.tokens, t ∈ st.heads := by
  induction st using parts_induction with
  | step st ih =>
    intro ty hty t ht
    cases st with
    | declare ty' name init line =>
      obtain rfl : ty' = some ty := by simpa [types] using hty
      simp [heads, declaredTokens, ht]
    | assign target value => cases hty
    | expr value => cases hty
    | block stmts =>
      exact mem_headsOfAll_of_types (fun p hp => ih p (by simpa [parts] using hp)) ty hty t ht
    | branch cond thenBranch elseBranch =>
      rcases List.mem_append.mp hty with hty | hty
      · exact List.mem_append_left _ (ih thenBranch (by simp [parts]) ty hty t ht)
      · cases elseBranch with
        | none => cases hty
        | some other =>
          exact List.mem_append_right _ (ih other (by simp [parts]) ty hty t ht)
    | foreach ty' name iter body =>
      rcases List.mem_append.mp hty with hty | hty
      · obtain rfl : ty' = some ty := by simpa using hty
        simp [heads, declaredTokens, ht]
      · simp [heads, ih body (by simp [parts]) ty hty t ht]

namespace Program

theorem isTypeToken_scanned {ty : TypeExpr} (h : ty.Named) : ∀ t ∈ ty.tokens, t.Scanned := by
  intro t ht
  have htype := ty.isTypeToken_of_mem_tokens t ht
  cases t with
  | ident x => exact h x ht
  | symbol sign => exact trivial
  | _ => cases htype

/-- The types that a read program writes have names that can be read. -/
theorem IsRead.writes_named {p : Program} (h : p.IsRead) :
    Stmt.Writes Ty.Named p.roots (Stmt.typesOfAll p.stmts) where
  construction := by
    intro e he m ty args init hmem
    refine Ty.named_ofTypeExpr ty fun x hx => ?_
    have hhas : e.Has (.ident x) := ⟨_, hmem, by simp [Expr.words, hx]⟩
    exact h.words e he _ hhas
  declaration := by
    intro ty hty
    refine Ty.named_ofTypeExpr ty fun x hx => ?_
    refine h.heads (.ident x) ?_
    exact Stmt.mem_headsOfAll_of_types (fun p _ => p.mem_heads_of_types) ty hty _ hx

/-- A word of an expanded program can be scanned, if the container is a name. -/
theorem IsRead.scanned_desugar {p : Program} (h : p.IsRead) {options : Options}
    (hcontainer : IsName options.container) {e' : Expr}
    (he' : e' ∈ (p.desugar options).program.roots) {t : Token} (ht : e'.Has t) : t.Scanned := by
  obtain ⟨e, he, hR⟩ := (p.related_desugar options).exists_root e' he'
  rcases hR.has ht with hold | ⟨n, -, n', hreplace, hword⟩
  · exact h.words e he t hold
  · rcases hreplace.mem_words hword with rfl | rfl | rfl | rfl | rfl | ⟨x, -, hx⟩
    · exact trivial
    · exact hcontainer
    · exact trivial
    · exact trivial
    · exact (by decide : IsName "object")
    · exact isTypeToken_scanned (Typing.closed_typeOfId Ty.closed_named h.writes_named x.id) t hx

theorem double_of_mem_words {n : Expr} {value : Double} (h : .double value ∈ n.words) :
    ∃ m, n = .literal m (.double value) := by
  cases n with
  | literal m found =>
    have htoken : Token.double value = found.token := by simpa [Expr.words] using h
    cases found <;> cases htoken
    exact ⟨m, rfl⟩
  | new m ty args init =>
    have hmem : .double value ∈ ty.tokens := by simpa [Expr.words] using h
    have htype := ty.isTypeToken_of_mem_tokens _ hmem
    cases htype
  | _ => simp [Expr.words] at h

/-- **Statements whose words can be written are read back from their text, trimmed.** -/
theorem exists_ofText_render {p : Program} (hwf : Stmt.AllWellFormed p.stmts)
    (hres : ∀ e ∈ p.roots, e.Resolved) (hwrite : ∀ e ∈ p.roots, e.Writable)
    (hheads : ∀ t ∈ Stmt.headsOfAll p.stmts, t.Scanned) :
    ∃ q, ofText p.render = .ok q ∧
      q.stmts.map Stmt.bare = p.stmts.map fun st => st.trimmed.bare := by
  have hwritten : ∀ st ∈ p.stmts, st.Written := by
    intro st hst
    have hroots : ∀ e ∈ st.roots, e ∈ p.roots := by
      intro e he
      rw [roots, Stmt.rootsOfAll_eq, List.mem_flatMap]
      exact ⟨st, hst, he⟩
    refine Stmt.written (Stmt.allWellFormed_iff.mp hwf st hst) (fun e he => hres e (hroots e he))
      (fun e he => hwrite e (hroots e he)) fun t ht => hheads t ?_
    rw [Stmt.headsOfAll_eq, List.mem_flatMap]
    exact ⟨st, hst, ht⟩
  obtain ⟨us, hspell, hlexed⟩ := Stmt.lexedLines_all hwritten 0
  have hlexes : Lexes p.render.toList us := by
    simpa [render] using hlexed Lexes.nil
  have htrimmed : ∀ e' ∈ Stmt.rootsOfAll (p.stmts.map Stmt.trimmed), e'.Resolved := by
    intro e' he'
    have hrel : Stmt.RelatedAll (fun e e' => e' = e.trimmed) p.stmts (p.stmts.map Stmt.trimmed) :=
      Stmt.relatedAll_map fun st _ => st.related_trimmed
    obtain ⟨e, he, rfl⟩ := hrel.exists_root e' he'
    exact (hres e he).trimmed
  obtain ⟨q, hq, hbare⟩ := exists_ofText hlexes hwf.trimmed htrimmed hspell
  refine ⟨q, hq, ?_⟩
  rw [hbare, List.map_map]
  rfl

/-- **The output of a run on a program that was read is read back, trimmed.** -/
theorem IsRead.exists_ofText_output {p : Program} (h : p.IsRead) {options : Options}
    (hcontainer : IsName options.container)
    (hres : ∀ e ∈ (p.desugar options).program.roots, e.Resolved)
    (hdouble : ∀ m value, .literal m (.double value) ∈ (p.desugar options).program.nodes →
      value.isFinite = true) :
    ∃ q, ofText (p.desugar options).output = .ok q ∧
      q.stmts.map Stmt.bare =
        (p.desugar options).program.stmts.map fun st => st.trimmed.bare := by
  refine exists_ofText_render ?_ hres ?_ ?_
  · exact Desugar.Setting.allWellFormed_stmts h.wellFormed p.nextId
  · intro e he t ht
    refine ⟨h.scanned_desugar hcontainer he ht, ?_⟩
    rintro value rfl
    obtain ⟨n, hn, hword⟩ := ht
    obtain ⟨m, rfl⟩ := double_of_mem_words hword
    exact hdouble m value (mem_nodes_of_mem_roots he hn)
  · intro t ht
    exact h.heads t ((p.related_desugar options).heads_eq ▸ ht)

end Program

/-- A text that is cut into one name is that name. -/
theorem isName_of_tokenize {text : String} (h : ∃ found, tokenize text = .ok found ∧
    found.map Located.token = [.ident text, .eof]) : IsName text := by
  obtain ⟨us, hus, heq⟩ := tokenize_eq_ok_iff.mp h
  obtain rfl : us = [.ident text] := by
    simpa using (List.append_inj' heq rfl).1.symm
  exact hus.scanned (.ident text) (by simp)

/-- **The output of a run is read back as its program.**  Numbers and places aside, and but
for a missing element at the end of an initializer, the program that the output is read as
is the program of the run. -/
theorem ofText_output {source : String} {options : Options} {d : Desugared}
    (hcontainer : ∃ found, tokenize options.container = .ok found ∧
      found.map Located.token = [.ident options.container, .eof])
    (hd : desugar source options = .ok d)
    (hnew : ∀ m ty args init, .new m ty args init ∈ d.program.nodes → ty.isResolved = true)
    (hdouble : ∀ m value, .literal m (.double value) ∈ d.program.nodes → value.isFinite = true) :
    ∃ p, Program.ofText d.output = .ok p ∧
      p.stmts.map Stmt.bare = d.program.stmts.map fun st => st.trimmed.bare := by
  obtain ⟨p, hp, rfl⟩ := desugar_eq_ok_iff.mp hd
  refine (Program.isRead_of_ofText hp).exists_ofText_output (isName_of_tokenize hcontainer)
    (fun e he n hn => ?_) hdouble
  cases n with
  | new m ty args init => exact hnew m ty args init (Program.mem_nodes_of_mem_roots he hn)
  | _ => exact trivial

/-- A literal that is assigned: its construction spells its type and ends in no gap, so the
output reads back as the program of the run. -/
theorem ofText_output_assign : ∃ d p, desugar "x = [<1>];" {} = .ok d ∧
    d.output = "x = new List<int> \x7b 1 \x7d;\n" ∧ Program.ofText d.output = .ok p ∧
      p.stmts.map Stmt.bare = d.program.stmts.map fun st => st.trimmed.bare := by
  have hrun : (desugar "x = [<1>];" {}).map (fun d =>
      (d.program.nodes.all fun
        | .new _ ty _ _ => ty.isResolved
        | .literal _ (.double value) => value.isFinite
        | _ => true, d.output)) = .ok (true, "x = new List<int> \x7b 1 \x7d;\n") := by
    decide +kernel
  obtain ⟨d, hd, hrun⟩ := map_eq_ok_iff.mp hrun
  obtain ⟨hall, houtput⟩ := Prod.mk.inj hrun
  rw [List.all_eq_true] at hall
  obtain ⟨p, hp, hbare⟩ := ofText_output (map_eq_ok_iff.mp (by decide +kernel)) hd
    (fun m ty args init hmem => hall _ hmem) (fun m value hmem => hall _ hmem)
  exact ⟨d, p, hd, houtput, hp, hbare⟩

end ListSugar
