/-
Statements that differ in their expressions only.

`Related R` says that two statements are the same up to their expressions, and that
these are related by `R` one by one.  Whatever depends on the statements alone is then
the same for both: the declared names and types, and whether an `else` could still
follow.  A statement stays readable if its expressions do, if they end alike, and if no
head of a declaration comes up among them.

Trimming is one such change.  It takes something away only inside a construction, and
no declaration begins with one.
-/
import ListSugar.Proofs.Grammar.Statements

namespace ListSugar

namespace Stmt

/-- The initializers are both absent, or related. -/
def RelatedInit (R : Expr → Expr → Prop) : Option Expr → Option Expr → Prop
  | none, init' => init' = none
  | some e, init' => ∃ e', R e e' ∧ init' = some e'

mutual

/-- The statements are the same, apart from expressions that are related by `R`. -/
def Related (R : Expr → Expr → Prop) : Stmt → Stmt → Prop
  | .declare ty name init line, st' =>
    ∃ init', RelatedInit R init init' ∧ st' = .declare ty name init' line
  | .assign target value, st' =>
    ∃ target' value', R target target' ∧ R value value' ∧ st' = .assign target' value'
  | .expr value, st' => ∃ value', R value value' ∧ st' = .expr value'
  | .block stmts, st' => ∃ stmts', RelatedAll R stmts stmts' ∧ st' = .block stmts'
  | .branch cond thenBranch elseBranch, st' => ∃ cond' thenBranch' elseBranch',
      R cond cond' ∧ Related R thenBranch thenBranch' ∧ RelatedElse R elseBranch elseBranch' ∧
        st' = .branch cond' thenBranch' elseBranch'
  | .foreach ty name iter body, st' => ∃ iter' body', R iter iter' ∧ Related R body body' ∧
      st' = .foreach ty name iter' body'

/-- The statements are related one by one. -/
def RelatedAll (R : Expr → Expr → Prop) : List Stmt → List Stmt → Prop
  | [], stmts' => stmts' = []
  | first :: rest, stmts' => ∃ first' rest', Related R first first' ∧ RelatedAll R rest rest' ∧
      stmts' = first' :: rest'

/-- The alternatives are both absent, or related. -/
def RelatedElse (R : Expr → Expr → Prop) : Option Stmt → Option Stmt → Prop
  | none, other' => other' = none
  | some other, st' => ∃ other', Related R other other' ∧ st' = some other'

end

variable {R : Expr → Expr → Prop}

/-! ### What related statements share -/

theorem Related.endsOpen_eq {st : Stmt} : ∀ {st' : Stmt}, Related R st st' →
    st'.endsOpen = st.endsOpen := by
  induction st using parts_induction with
  | step st ih =>
    intro st' h
    cases st with
    | declare ty name init line =>
      obtain ⟨init', -, rfl⟩ := h
      rfl
    | assign target value =>
      obtain ⟨target', value', -, -, rfl⟩ := h
      rfl
    | expr value =>
      obtain ⟨value', -, rfl⟩ := h
      rfl
    | block stmts =>
      obtain ⟨stmts', -, rfl⟩ := h
      rfl
    | branch cond thenBranch elseBranch =>
      obtain ⟨cond', thenBranch', elseBranch', -, -, helse, rfl⟩ := h
      cases elseBranch with
      | none =>
        obtain rfl : elseBranch' = none := helse
        rfl
      | some other =>
        obtain ⟨other', hother, rfl⟩ := helse
        rw [endsOpen, endsOpen]
        exact ih other (by simp [parts]) hother
    | foreach ty name iter body =>
      obtain ⟨iter', body', -, hbody, rfl⟩ := h
      rw [endsOpen, endsOpen]
      exact ih body (by simp [parts]) hbody

theorem relatedAll_heads : ∀ {stmts stmts' : List Stmt}, RelatedAll R stmts stmts' →
    (∀ p ∈ stmts, ∀ {p'}, Related R p p' → p'.heads = p.heads) →
    headsOfAll stmts' = headsOfAll stmts := by
  intro stmts
  induction stmts with
  | nil =>
    rintro stmts' rfl _
    rfl
  | cons first rest ih =>
    rintro stmts' ⟨first', rest', hfirst, hrest, rfl⟩ heq
    rw [headsOfAll, headsOfAll, heq first (by simp) hfirst,
      ih hrest fun p hp => heq p (by simp [hp])]

theorem Related.heads_eq {st : Stmt} : ∀ {st' : Stmt}, Related R st st' →
    st'.heads = st.heads := by
  induction st using parts_induction with
  | step st ih =>
    intro st' h
    cases st with
    | declare ty name init line =>
      obtain ⟨init', -, rfl⟩ := h
      rfl
    | assign target value =>
      obtain ⟨target', value', -, -, rfl⟩ := h
      rfl
    | expr value =>
      obtain ⟨value', -, rfl⟩ := h
      rfl
    | block stmts =>
      obtain ⟨stmts', hall, rfl⟩ := h
      exact relatedAll_heads hall fun p hp => ih p (by simpa [parts] using hp)
    | branch cond thenBranch elseBranch =>
      obtain ⟨cond', thenBranch', elseBranch', -, hthen, helse, rfl⟩ := h
      rw [heads, heads, ih thenBranch (by simp [parts]) hthen]
      cases elseBranch with
      | none =>
        obtain rfl : elseBranch' = none := helse
        rfl
      | some other =>
        obtain ⟨other', hother, rfl⟩ := helse
        rw [headsOfElse, headsOfElse, ih other (by simp [parts]) hother]
    | foreach ty name iter body =>
      obtain ⟨iter', body', -, hbody, rfl⟩ := h
      rw [heads, heads, ih body (by simp [parts]) hbody]

/-- Statements that are related one by one declare the same. -/
theorem RelatedAll.heads_eq {stmts stmts' : List Stmt} (h : RelatedAll R stmts stmts') :
    headsOfAll stmts' = headsOfAll stmts :=
  relatedAll_heads h fun _ _ => Related.heads_eq

theorem relatedAll_roots : ∀ {stmts stmts' : List Stmt}, RelatedAll R stmts stmts' →
    (∀ p ∈ stmts, ∀ {p'}, Related R p p' → ∀ e' ∈ p'.roots, ∃ e ∈ p.roots, R e e') →
    ∀ e' ∈ rootsOfAll stmts', ∃ e ∈ rootsOfAll stmts, R e e' := by
  intro stmts
  induction stmts with
  | nil =>
    rintro stmts' rfl _ e' he'
    cases he'
  | cons first rest ih =>
    rintro stmts' ⟨first', rest', hfirst, hrest, rfl⟩ hroots e' he'
    rcases List.mem_append.mp he' with he' | he'
    · obtain ⟨e, he, hR⟩ := hroots first (by simp) hfirst e' he'
      exact ⟨e, List.mem_append_left _ he, hR⟩
    · obtain ⟨e, he, hR⟩ := ih hrest (fun p hp => hroots p (by simp [hp])) e' he'
      exact ⟨e, List.mem_append_right _ he, hR⟩

/-- Every expression of a related statement is related to one of the statement. -/
theorem Related.exists_root {st : Stmt} : ∀ {st' : Stmt}, Related R st st' →
    ∀ e' ∈ st'.roots, ∃ e ∈ st.roots, R e e' := by
  induction st using parts_induction with
  | step st ih =>
    intro st' h e' he'
    cases st with
    | declare ty name init line =>
      obtain ⟨init', hinit, rfl⟩ := h
      obtain rfl : init' = some e' := by simpa [roots] using he'
      cases init with
      | none => cases hinit
      | some e =>
        obtain ⟨e'', hR, heq⟩ := hinit
        cases heq
        exact ⟨e, by simp [roots], hR⟩
    | assign target value =>
      obtain ⟨target', value', htarget, hvalue, rfl⟩ := h
      rcases (by simpa [roots] using he' : e' = target' ∨ e' = value') with rfl | rfl
      · exact ⟨target, by simp [roots], htarget⟩
      · exact ⟨value, by simp [roots], hvalue⟩
    | expr value =>
      obtain ⟨value', hvalue, rfl⟩ := h
      obtain rfl : e' = value' := by simpa [roots] using he'
      exact ⟨value, by simp [roots], hvalue⟩
    | block stmts =>
      obtain ⟨stmts', hall, rfl⟩ := h
      exact relatedAll_roots hall (fun p hp => ih p (by simpa [parts] using hp)) e' he'
    | branch cond thenBranch elseBranch =>
      obtain ⟨cond', thenBranch', elseBranch', hcond, hthen, helse, rfl⟩ := h
      rw [roots_branch, List.mem_cons, List.mem_append] at he'
      rw [roots_branch]
      rcases he' with rfl | he' | he'
      · exact ⟨cond, by simp, hcond⟩
      · obtain ⟨e, he, hR⟩ := ih thenBranch (by simp [parts]) hthen e' he'
        exact ⟨e, by simp [he], hR⟩
      · cases elseBranch with
        | none =>
          obtain rfl : elseBranch' = none := helse
          cases he'
        | some other =>
          obtain ⟨other', hother, rfl⟩ := helse
          obtain ⟨e, he, hR⟩ := ih other (by simp [parts]) hother e' (by simpa using he')
          exact ⟨e, by simp [he], hR⟩
    | foreach ty name iter body =>
      obtain ⟨iter', body', hiter, hbody, rfl⟩ := h
      rcases List.mem_cons.mp he' with rfl | he'
      · exact ⟨iter, by simp [roots], hiter⟩
      · obtain ⟨e, he, hR⟩ := ih body (by simp [parts]) hbody e' he'
        exact ⟨e, by simp [roots, he], hR⟩

theorem RelatedAll.exists_root {stmts stmts' : List Stmt} (h : RelatedAll R stmts stmts') :
    ∀ e' ∈ rootsOfAll stmts', ∃ e ∈ rootsOfAll stmts, R e e' :=
  relatedAll_roots h fun _ _ => Related.exists_root

/-! ### Related statements stay readable

A readable statement asks three things of its expressions: that they are readable
themselves, how they end, and that none of them could be taken for the head of a
declaration.  `KeepsReadable` asks that these be kept, and nothing else.
-/

/-- What a change of expressions has to keep so that a readable statement stays one. -/
structure KeepsReadable (R : Expr → Expr → Prop) : Prop where
  wellFormed : ∀ {e e'}, R e e' → e.WellFormed → e'.WellFormed
  endsMissing : ∀ {e e'}, R e e' → e'.endsMissing = e.endsMissing
  declaring : ∀ {e e'}, R e e' → e'.Declaring → e.Declaring

theorem relatedAll_wellFormed : ∀ {stmts stmts' : List Stmt}, RelatedAll R stmts stmts' →
    (∀ p ∈ stmts, ∀ {p'}, Related R p p' → p.WellFormed → p'.WellFormed) →
    AllWellFormed stmts → AllWellFormed stmts' := by
  intro stmts
  induction stmts with
  | nil =>
    rintro stmts' rfl _ _
    exact trivial
  | cons first rest ih =>
    rintro stmts' ⟨first', rest', hfirst, hrest, rfl⟩ hwf ⟨hone, hothers⟩
    exact ⟨hwf first (by simp) hfirst hone, ih hrest (fun p hp => hwf p (by simp [hp])) hothers⟩

/-- **A statement stays readable when its expressions do.** -/
theorem Related.wellFormed (hR : KeepsReadable R) {st : Stmt} : ∀ {st' : Stmt}, Related R st st' →
    st.WellFormed → st'.WellFormed := by
  induction st using parts_induction with
  | step st ih =>
    intro st' h hwf
    cases st with
    | declare ty name init line =>
      obtain ⟨init', hinit, rfl⟩ := h
      cases init with
      | none =>
        obtain rfl : init' = none := hinit
        exact hwf
      | some e =>
        obtain ⟨e', he, rfl⟩ := hinit
        refine ⟨hwf.1, fun _ => rfl, ?_⟩
        rintro _ ⟨⟩
        exact hR.wellFormed he (hwf.2.2 e rfl)
    | assign target value =>
      obtain ⟨target', value', htarget, hvalue, rfl⟩ := h
      obtain ⟨hwft, hwfv, hends, hdecl⟩ := hwf
      refine ⟨hR.wellFormed htarget hwft, hR.wellFormed hvalue hwfv, ?_, ?_⟩
      · rw [hR.endsMissing htarget, hends]
      · exact fun hnew => hdecl (hR.declaring htarget hnew)
    | expr value =>
      obtain ⟨value', hvalue, rfl⟩ := h
      exact ⟨hR.wellFormed hvalue hwf.1, fun hnew => hwf.2 (hR.declaring hvalue hnew)⟩
    | block stmts =>
      obtain ⟨stmts', hall, rfl⟩ := h
      exact relatedAll_wellFormed hall (fun p hp => ih p (by simpa [parts] using hp)) hwf
    | branch cond thenBranch elseBranch =>
      obtain ⟨cond', thenBranch', elseBranch', hcond, hthen, helse, rfl⟩ := h
      obtain ⟨hwfc, hwft, hopen, hwfe⟩ := hwf
      refine ⟨hR.wellFormed hcond hwfc, ih thenBranch (by simp [parts]) hthen hwft, ?_, ?_⟩
      · rw [hthen.endsOpen_eq]
        cases elseBranch with
        | none =>
          obtain rfl : elseBranch' = none := helse
          exact hopen
        | some other => exact fun _ => hopen rfl
      · cases elseBranch with
        | none =>
          obtain rfl : elseBranch' = none := helse
          exact trivial
        | some other =>
          obtain ⟨other', hother, rfl⟩ := helse
          exact ih other (by simp [parts]) hother hwfe
    | foreach ty name iter body =>
      obtain ⟨iter', body', hiter, hbody, rfl⟩ := h
      exact ⟨hwf.1, hR.wellFormed hiter hwf.2.1, ih body (by simp [parts]) hbody hwf.2.2⟩

theorem RelatedAll.wellFormed (hR : KeepsReadable R) {stmts stmts' : List Stmt}
    (h : RelatedAll R stmts stmts') (hwf : AllWellFormed stmts) : AllWellFormed stmts' :=
  relatedAll_wellFormed h (fun _ _ => Related.wellFormed hR) hwf

end Stmt

/-! ### No declaration begins with a construction

Trimming changes a tree only below a construction, and the head of a declaration is made
of names and brackets.  So a tree that could be taken for a declaration after trimming
could be taken for one before.
-/

theorem Declaring.new_not_mem {ts : List Token} (h : Declaring ts) : .keyword .new ∉ ts := by
  obtain ⟨ty, declared, -, rfl⟩ := h
  intro hmem
  have := ty.isTypeToken_of_mem_tokens (.keyword .new) (by simpa using hmem)
  cases this

namespace Expr

/-- A tree that can be written as the head of a declaration holds no construction. -/
theorem Declaring.not_has_new {e : Expr} (h : e.Declaring) : ¬ e.Has (.keyword .new) := by
  obtain ⟨ts, hts, hdecl⟩ := h
  intro hhas
  exact hdecl.new_not_mem ((hts.mem_iff rfl).mpr hhas)

theorem not_has_of_mem_children {e c : Expr} {t : Token} (h : ¬ e.Has t) (hc : c ∈ e.children) :
    ¬ c.Has t :=
  fun hhas => h (has_iff.mpr (Or.inr ⟨c, hc, hhas⟩))

/-- Trimming leaves a tree without constructions as it is. -/
theorem trimmed_eq_self {e : Expr} : ¬ e.trimmed.Has (.keyword .new) → e.trimmed = e := by
  induction e using children_induction with
  | step e ih =>
    intro h
    have hparts : ∀ c ∈ e.children, c.trimmed ∈ e.trimmed.children → c.trimmed = c :=
      fun c hc hc' => ih c hc (not_has_of_mem_children h hc')
    have hall : ∀ es : List Expr, (∀ c ∈ es, c.trimmed = c) → trimmedAll es = es := by
      intro es hes
      rw [trimmedAll_eq, List.map_congr_left hes, List.map_id']
    cases e with
    | missing m => rfl
    | literal m value => rfl
    | ident m name => rfl
    | paren m inner =>
      rw [Expr.trimmed, hparts inner (by simp [children]) (by simp [Expr.trimmed, children])]
    | unary m op operand =>
      rw [Expr.trimmed, hparts operand (by simp [children]) (by simp [Expr.trimmed, children])]
    | binary m op left right =>
      rw [Expr.trimmed, hparts left (by simp [children]) (by simp [Expr.trimmed, children]),
        hparts right (by simp [children]) (by simp [Expr.trimmed, children])]
    | member m receiver name =>
      rw [Expr.trimmed, hparts receiver (by simp [children]) (by simp [Expr.trimmed, children])]
    | call m callee args =>
      rw [Expr.trimmed, hparts callee (by simp [children]) (by simp [Expr.trimmed, children]),
        hall args fun c hc => hparts c (by simp [children, hc])
          (by simpa [Expr.trimmed, children, trimmedAll_eq] using Or.inr ⟨c, hc, rfl⟩)]
    | index m receiver args =>
      rw [Expr.trimmed, hparts receiver (by simp [children]) (by simp [Expr.trimmed, children]),
        hall args fun c hc => hparts c (by simp [children, hc])
          (by simpa [Expr.trimmed, children, trimmedAll_eq] using Or.inr ⟨c, hc, rfl⟩)]
    | new m ty args init => exact absurd (has_iff.mpr (Or.inl (by simp [Expr.trimmed, words]))) h

theorem Declaring.of_trimmed {e : Expr} (h : e.trimmed.Declaring) : e.Declaring := by
  rw [← trimmed_eq_self h.not_has_new]
  exact h

end Expr

namespace Stmt

theorem relatedAll_map {R : Expr → Expr → Prop} {f : Stmt → Stmt} : ∀ {stmts : List Stmt},
    (∀ p ∈ stmts, Related R p (f p)) → RelatedAll R stmts (stmts.map f) := by
  intro stmts
  induction stmts with
  | nil => intro _; rfl
  | cons first rest ih =>
    intro h
    exact ⟨f first, rest.map f, h first (by simp), ih fun p hp => h p (by simp [hp]), rfl⟩

/-- A statement is related to itself by what trimming does to its expressions. -/
theorem related_trimmed (st : Stmt) : Related (fun e e' => e' = e.trimmed) st st.trimmed := by
  induction st using parts_induction with
  | step st ih =>
    cases st with
    | declare ty name init line =>
      cases init with
      | none => exact ⟨none, rfl, rfl⟩
      | some e => exact ⟨some e.trimmed, ⟨_, rfl, rfl⟩, rfl⟩
    | assign target value => exact ⟨_, _, rfl, rfl, rfl⟩
    | expr value => exact ⟨_, rfl, rfl⟩
    | block stmts =>
      exact ⟨stmts.map trimmed, relatedAll_map fun p hp => ih p hp, trimmed_block stmts⟩
    | branch cond thenBranch elseBranch =>
      have hthen := ih thenBranch (by simp [parts])
      cases elseBranch with
      | none => exact ⟨_, _, none, rfl, hthen, rfl, rfl⟩
      | some other =>
        exact ⟨_, _, some other.trimmed, rfl, hthen, ⟨_, ih other (by simp [parts]), rfl⟩, rfl⟩
    | foreach ty name iter body => exact ⟨_, _, rfl, ih body (by simp [parts]), rfl⟩

theorem keepsReadable_trimmed : KeepsReadable fun e e' => e' = e.trimmed where
  wellFormed := by
    rintro e _ rfl hwf
    exact hwf.trimmed
  endsMissing := by
    rintro e _ rfl
    exact e.endsMissing_trimmed
  declaring := by
    rintro e _ rfl h
    exact h.of_trimmed

/-- **Trimmed statements can be read back.** -/
theorem AllWellFormed.trimmed {stmts : List Stmt} (h : AllWellFormed stmts) :
    AllWellFormed (stmts.map trimmed) :=
  (relatedAll_map fun p _ => related_trimmed p).wellFormed keepsReadable_trimmed h

end Stmt

end ListSugar
