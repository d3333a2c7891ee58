/-
The two policies for literals of unknown type.

Both runs judge a node in the same way unless it is a literal whose type is unknown.  There
they part: one leaves the literal and walks its parts, the other expands it and takes its
elements as they are.  So the run that proceeds meets no literal that the other one does not
meet, and where no literal is left, the two do the same from the same number on.

That the runs do the same is shown by two congruences: what a walk gives at a node it keeps
depends on the setting through the walks over the parts, and what it gives at a statement
through the walks over its expressions.
-/
import ListSugar.Proofs.Pass.Reported
import ListSugar.Proofs.Pass.Runs

namespace ListSugar

namespace Desugar

/-- What a site tells of a literal, without what became of it: the place, how many elements
there are, and their type. -/
def Site.literal (site : Site) : Pos × Nat × Ty := (site.pos, site.count, site.ty)

/-- The literals that were met on a walk. -/
def literalsOf (visits : List Visit) : List (Pos × Nat × Ty) :=
  (sitesOf visits).map Site.literal

@[simp] theorem literalsOf_append (a b : List Visit) :
    literalsOf (a ++ b) = literalsOf a ++ literalsOf b := by
  simp [literalsOf]

namespace Setting

/-! ### Walks that do the same

A kept node reads the setting only for its verdict, and in the walks over its parts.  So
two settings that agree on these give the same walk, and nothing has to be known about
what the settings are.
-/

section Congruence

variable {s t : Setting}

theorem exprs_congr : ∀ {es : List Expr}, (∀ e ∈ es, ∀ n, s.expr e n = t.expr e n) →
    ∀ n, s.exprs es n = t.exprs es n := by
  intro es
  induction es with
  | nil =>
    intro _ n
    rw [exprs_nil, exprs_nil]
  | cons e rest ih =>
    intro h n
    have hrest := ih fun c hc => h c (by simp [hc])
    rw [exprs_cons, exprs_cons]
    simp only [h e (by simp), hrest]

theorem part_congr {part : Option (List Expr)}
    (h : ∀ e ∈ part.getD [], ∀ n, s.expr e n = t.expr e n) (n : Nat) :
    s.part part n = t.part part n := by
  cases part with
  | none => rw [part_none, part_none]
  | some es =>
    have hes : s.exprs es n = t.exprs es n := exprs_congr h n
    rw [part_some, part_some, hes]

/-- **A node that both walks keep comes out the same if its parts do.** -/
theorem expr_congr {e : Expr} (hs : ¬ (s.judge e).Expands) (hjudge : s.judge e = t.judge e)
    (h : ∀ c ∈ e.children, ∀ n, s.expr c n = t.expr c n) (n : Nat) :
    s.expr e n = t.expr e n := by
  cases e with
  | missing m => rw [expr_missing, expr_missing]
  | literal m value => rw [expr_literal, expr_literal]
  | ident m name => rw [expr_ident, expr_ident]
  | paren m inner =>
    rw [expr_paren, expr_paren, h inner (by simp [Expr.children])]
  | unary m op operand =>
    rw [expr_unary, expr_unary, h operand (by simp [Expr.children])]
  | binary m op left right =>
    rw [expr_binary, expr_binary]
    simp only [h left (by simp [Expr.children]), h right (by simp [Expr.children])]
  | member m receiver name =>
    rw [expr_member, expr_member, h receiver (by simp [Expr.children])]
  | call m callee args =>
    have hargs : ∀ n, s.exprs args n = t.exprs args n :=
      exprs_congr fun c hc => h c (by simp [Expr.children, hc])
    rw [expr_call, expr_call]
    simp only [h callee (by simp [Expr.children]), hargs]
  | index m receiver args =>
    have hargs : ∀ n, s.exprs args n = t.exprs args n :=
      exprs_congr fun c hc => h c (by simp [Expr.children, hc])
    rw [s.expr_index hs, t.expr_index (hjudge ▸ hs)]
    simp only [h receiver (by simp [Expr.children]), hargs, hjudge]
  | new m ty args init =>
    have hargs : ∀ n, s.part args n = t.part args n :=
      part_congr fun c hc => h c (by simp [Expr.children, hc])
    have hinit : ∀ n, s.part init n = t.part init n :=
      part_congr fun c hc => h c (by simp [Expr.children, hc])
    rw [expr_new, expr_new]
    simp only [hargs, hinit]

theorem stmts_congr : ∀ {stmts : List Stmt}, (∀ p ∈ stmts, ∀ n, s.stmt p n = t.stmt p n) →
    ∀ n, s.stmts stmts n = t.stmts stmts n := by
  intro stmts
  induction stmts with
  | nil =>
    intro _ n
    rw [stmts_nil, stmts_nil]
  | cons first rest ih =>
    intro h n
    have hrest := ih fun p hp => h p (by simp [hp])
    rw [stmts_cons, stmts_cons]
    simp only [h first (by simp), hrest]

/-- **A statement comes out the same if its expressions do.** -/
theorem stmt_congr (st : Stmt) : (∀ e ∈ st.roots, ∀ n, s.expr e n = t.expr e n) →
    ∀ n, s.stmt st n = t.stmt st n := by
  induction st using Stmt.parts_induction with
  | step st ih =>
    intro h n
    have hparts : ∀ p ∈ st.parts, ∀ n, s.stmt p n = t.stmt p n := fun p hp =>
      ih p hp fun e he => h e (Stmt.mem_roots_of_mem_parts hp he)
    cases st with
    | declare ty name initial line =>
      rw [stmt_declare, stmt_declare]
      cases initial with
      | none => rw [init_none, init_none]
      | some e => rw [init_some, init_some, h e (by simp [Stmt.roots])]
    | assign target value =>
      rw [stmt_assign, stmt_assign]
      simp only [h target (by simp [Stmt.roots]), h value (by simp [Stmt.roots])]
    | expr value =>
      rw [stmt_expr, stmt_expr, h value (by simp [Stmt.roots])]
    | block stmts =>
      have hstmts : s.stmts stmts n = t.stmts stmts n := stmts_congr hparts n
      rw [stmt_block, stmt_block, hstmts]
    | branch cond thenBranch elseBranch =>
      have hcond := h cond (by simp [Stmt.roots_branch])
      have hthen := hparts thenBranch (by simp [Stmt.parts])
      rw [stmt_branch, stmt_branch]
      cases elseBranch with
      | none => simp only [hcond, hthen, alternative_none]
      | some other =>
        simp only [hcond, hthen, alternative_some, hparts other (by simp [Stmt.parts])]
    | foreach ty name iter body =>
      rw [stmt_foreach, stmt_foreach]
      simp only [h iter (by simp [Stmt.roots]), hparts body (by simp [Stmt.parts])]

end Congruence

/-! ### One policy and the other

The numbers of the two walks run apart once one of them has expanded what the other one
left.  So the walks are compared from any two numbers, and by the literals that they meet,
in which no number occurs.
-/

/-- The setting with another policy. -/
def under (s : Setting) (policy : Policy) : Setting :=
  ⟨⟨s.options.container, policy⟩, s.typeOf⟩

variable {s : Setting}

theorem expands_under_proceed (ty : Ty) : (s.under .proceed).expands ty = true := by
  simp [expands, under]

theorem expands_under_abstain (ty : Ty) : (s.under .abstain).expands ty = ty.isKnown := by
  simp [expands, under]

/-- The policies part at a literal of unknown type: one leaves it, the other expands it. -/
theorem judgeElements_under (pos : Pos) (elements : List Expr) :
    (∃ site, (s.under .abstain).judgeElements pos elements = .expand site elements ∧
        (s.under .proceed).judgeElements pos elements = .expand site elements) ∨
      ∃ site, (s.under .abstain).judgeElements pos elements = .leave site ∧
        (s.under .proceed).judgeElements pos elements =
          .expand { site with outcome := .expanded } elements := by
  unfold judgeElements
  simp only [expands_under_proceed, expands_under_abstain, if_true]
  by_cases hknown : (Expr.elementType s.typeOf elements).isKnown = true
  · left
    exact ⟨_, if_pos hknown, rfl⟩
  · right
    exact ⟨_, if_neg hknown, rfl⟩

/-- **The policies part only at a literal that one of them leaves.** -/
theorem judge_under (e : Expr) :
    ((s.under .abstain).judge e = (s.under .proceed).judge e ∧
        ∀ site, (s.under .proceed).judge e ≠ .leave site) ∨
      ∃ site elements, (s.under .abstain).judge e = .leave site ∧
        (s.under .proceed).judge e = .expand { site with outcome := .expanded } elements := by
  cases e with
  | index m receiver args =>
    cases hshape : Expr.delimitedArgs? args with
    | none => simp [judge, hshape]
    | some shape =>
      simp only [judge, hshape]
      rcases judgeElements_under (s := s) m.pos shape.elements with
        ⟨site, habstain, hproceed⟩ | ⟨site, habstain, hproceed⟩
      · left
        simp [habstain, hproceed]
      · right
        exact ⟨site, shape.elements, habstain, hproceed⟩
  | _ => simp [judge]

theorem literals_under_of : ∀ {es : List Expr}, (∀ e ∈ es, ∀ n m,
      (literalsOf ((s.under .proceed).expr e n).visits).Sublist
        (literalsOf ((s.under .abstain).expr e m).visits)) → ∀ n m,
    (literalsOf ((s.under .proceed).exprs es n).visits).Sublist
      (literalsOf ((s.under .abstain).exprs es m).visits) := by
  intro es
  induction es with
  | nil =>
    intro _ n m
    rw [exprs_nil, exprs_nil]
  | cons e rest ih =>
    intro h n m
    have hrest := ih fun c hc => h c (by simp [hc])
    simp only [exprs_cons, literalsOf_append]
    exact (h e (by simp) n m).append (hrest _ _)

/-- **A walk that proceeds meets no literal that one which abstains does not meet.** -/
theorem literals_under (e : Expr) : ∀ n m,
    (literalsOf ((s.under .proceed).expr e n).visits).Sublist
      (literalsOf ((s.under .abstain).expr e m).visits) := by
  induction e using Expr.children_induction with
  | step e ih =>
    intro n m
    rcases judge_under (s := s) e with ⟨hsame, -⟩ | ⟨site, elements, habstain, hproceed⟩
    · by_cases hexpand : ((s.under .proceed).judge e).Expands
      · obtain ⟨site, elements, hj⟩ := hexpand
        rw [expr_of_expand _ hj, expr_of_expand _ (hsame.trans hj)]
      · rw [(kept hexpand n).visits, (kept (hsame ▸ hexpand) m).visits, hsame]
        simp only [literalsOf_append]
        exact (List.Sublist.refl _).append (literals_under_of ih n m)
    · -- The literal is met by both; below it, only the walk that leaves it goes on.
      have hleft : ¬ ((s.under .abstain).judge e).Expands := by simp [habstain]
      rw [expr_of_expand _ hproceed, (kept hleft m).visits, habstain, literalsOf_append]
      exact List.sublist_append_left _ _

/-- A walk over several expressions leaves no literal just when no walk over one of them
does. -/
theorem abstentions_exprs_eq_nil_iff {es : List Expr} : ∀ {n : Nat},
    abstentions (s.exprs es n).visits = [] ↔
      ∀ e ∈ es, abstentions (s.expr e n).visits = [] := by
  induction es with
  | nil => simp [exprs_nil, abstentions, sitesOf]
  | cons e rest ih =>
    intro n
    simp only [exprs_cons, abstentions_append, List.append_eq_nil_iff, ih, List.forall_mem_cons]
    refine and_congr_right fun _ => forall₂_congr fun c _ => ?_
    rw [visits_expr c (s.expr e n).nextId n]

theorem abstentions_of_expand {e : Expr} {site : Site} {elements : List Expr}
    (h : s.judge e = .expand site elements) : abstentions [.literal site] = [] := by
  obtain ⟨m, receiver, args, shape, -, -, -, rfl⟩ := judge_eq_expand h
  rfl

/-- A node is noted as a literal that is left just when the verdict says so. -/
theorem abstentions_notes_eq_nil_iff {e : Expr} (pos : Pos) :
    abstentions ((s.judge e).notes pos) = [] ↔ ∀ site, s.judge e ≠ .leave site := by
  cases hj : s.judge e with
  | other => simp [Verdict.notes, abstentions, sitesOf]
  | access => simp [Verdict.notes, abstentions, sitesOf, Visit.site?]
  | leave site =>
    obtain ⟨shape, -, -, rfl⟩ := judge_eq_leave hj
    simp [Verdict.notes, abstentions, sitesOf, Visit.site?]
  | expand site elements => simp [Verdict.notes, abstentions_of_expand hj]

/-- **A walk that proceeds leaves no literal.** -/
theorem abstentions_under_proceed (e : Expr) : ∀ n,
    abstentions ((s.under .proceed).expr e n).visits = [] := by
  induction e using Expr.children_induction with
  | step e ih =>
    intro n
    by_cases hexpand : ((s.under .proceed).judge e).Expands
    · obtain ⟨site, elements, hj⟩ := hexpand
      rw [expr_of_expand _ hj, abstentions_of_expand hj]
    · have hnotes : abstentions (((s.under .proceed).judge e).notes e.pos) = [] := by
        rw [abstentions_notes_eq_nil_iff]
        rcases judge_under (s := s) e with ⟨-, hleave⟩ | ⟨site, elements, -, hproceed⟩
        · exact hleave
        · exact absurd ⟨_, elements, hproceed⟩ hexpand
      rw [(kept hexpand n).visits, abstentions_append, hnotes, List.nil_append,
        abstentions_exprs_eq_nil_iff]
      exact fun c hc => ih c hc n

/-- **A walk that could abstain and leaves no literal does what one that proceeds does.** -/
theorem expr_under_eq (e : Expr) : ∀ {m : Nat},
    abstentions ((s.under .abstain).expr e m).visits = [] →
    ∀ n, (s.under .abstain).expr e n = (s.under .proceed).expr e n := by
  induction e using Expr.children_induction with
  | step e ih =>
    intro m hnone n
    by_cases hexpand : ((s.under .abstain).judge e).Expands
    · obtain ⟨site, elements, hj⟩ := hexpand
      rcases judge_under (s := s) e with ⟨hsame, -⟩ | ⟨_, _, habstain, -⟩
      · rw [expr_of_expand _ hj, expr_of_expand _ (hsame.symm.trans hj)]
        rfl
      · rw [habstain] at hj
        cases hj
    · rw [(kept hexpand m).visits, abstentions_append, List.append_eq_nil_iff,
        abstentions_notes_eq_nil_iff, abstentions_exprs_eq_nil_iff] at hnone
      obtain ⟨hleave, hchildren⟩ := hnone
      rcases judge_under (s := s) e with ⟨hsame, -⟩ | ⟨site, _, habstain, -⟩
      · exact expr_congr hexpand hsame (fun c hc => ih c hc (hchildren c hc)) n
      · exact absurd habstain (hleave site)

/-! ### Statements under both policies -/

/-- What is noted on a walk over statements is what is noted at their expressions. -/
theorem visits_stmts (stmts : List Stmt) (n : Nat) :
    (s.stmts stmts n).visits = (s.exprs (Stmt.rootsOfAll stmts) n).visits := by
  rw [exprs_rootsOfAll]

theorem stmts_under_eq {stmts : List Stmt} {n : Nat}
    (h : abstentions ((s.under .abstain).stmts stmts n).visits = []) :
    (s.under .abstain).stmts stmts n = (s.under .proceed).stmts stmts n := by
  rw [visits_stmts, abstentions_exprs_eq_nil_iff] at h
  refine stmts_congr (fun st hst => stmt_congr st fun e he => ?_) n
  have hroot : e ∈ Stmt.rootsOfAll stmts := by
    rw [Stmt.rootsOfAll_eq]
    exact List.mem_flatMap.mpr ⟨st, hst, he⟩
  exact expr_under_eq e (h e hroot)

end Setting

/-- No site tells of a literal that was left just when there are no such sites. -/
theorem abstentions_eq_nil_iff {visits : List Visit} :
    abstentions visits = [] ↔ ∀ site ∈ sitesOf visits, site.outcome ≠ .abstained := by
  simp [abstentions, List.filter_eq_nil_iff]

namespace Session

open Setting

/-- What a fresh session gives for a program: the walk over its statements. -/
theorem program_start (s : Setting) (n : Nat) (p : Program) :
    ((start s n).program p).1 =
      (⟨(s.stmts p.stmts (max n p.nextId)).value, (s.stmts p.stmts (max n p.nextId)).nextId⟩,
        ⟨sitesOf (s.stmts p.stmts (max n p.nextId)).visits⟩) := by
  simp [start, program, run, Report.empty]

/-- **The two policies differ only below literals of unknown type.**  Desugar a program in two
fresh sessions that have the same container, the same types and the same first number.  The
literals in the report of the one that proceeds are among those in the report of the one that
abstains, in the same order and with the same place, count and type.  It leaves none of them.
If the other leaves none either, both give the same program, numbers included, and the same
report. -/
theorem program_under_policies (container : String) (typeOf : Expr → Ty) (n : Nat) (p : Program) :
    let abstaining := ((start ⟨⟨container, .abstain⟩, typeOf⟩ n).program p).1
    let proceeding := ((start ⟨⟨container, .proceed⟩, typeOf⟩ n).program p).1
    (proceeding.2.sites.map Site.literal).Sublist (abstaining.2.sites.map Site.literal) ∧
      (∀ site ∈ proceeding.2.sites, site.outcome ≠ .abstained) ∧
      ((∀ site ∈ abstaining.2.sites, site.outcome ≠ .abstained) → proceeding = abstaining) := by
  intro abstaining proceeding
  let s : Setting := ⟨⟨container, .abstain⟩, typeOf⟩
  have habstaining : abstaining = _ := program_start (s.under .abstain) n p
  have hproceeding : proceeding = _ := program_start (s.under .proceed) n p
  rw [habstaining, hproceeding]
  refine ⟨?_, ?_, fun hnone => ?_⟩
  · show (literalsOf _).Sublist (literalsOf _)
    rw [visits_stmts, visits_stmts]
    exact literals_under_of (fun e _ => literals_under e) _ _
  · rw [← abstentions_eq_nil_iff, visits_stmts, abstentions_exprs_eq_nil_iff]
    exact fun e _ => abstentions_under_proceed e _
  · rw [← abstentions_eq_nil_iff] at hnone
    rw [stmts_under_eq hnone]

/-- Where the type of every literal is known, both policies give the same. -/
theorem program_under_policies_known : ∃ p, Program.ofText "x = f([<1, y>], [<>]);" = .ok p ∧
    let abstaining := ((start ⟨⟨"List", .abstain⟩, (p.setting {}).typeOf⟩ 0).program p).1
    let proceeding := ((start ⟨⟨"List", .proceed⟩, (p.setting {}).typeOf⟩ 0).program p).1
    abstaining.2.sites.map (fun site => (site.outcome, site.count)) =
        [(.expanded, 2), (.expanded, 0)] ∧
      proceeding = abstaining := by
  have hrun : (Program.ofText "x = f([<1, y>], [<>]);").map (fun p =>
      ((start ⟨⟨"List", .abstain⟩, (p.setting {}).typeOf⟩ 0).program p).1.2.sites.map
        fun site => (site.outcome, site.count)) = .ok [(.expanded, 2), (.expanded, 0)] := by
    decide +kernel
  obtain ⟨p, hp, hrun⟩ := map_eq_ok_iff.mp hrun
  refine ⟨p, hp, hrun, ?_⟩
  refine (program_under_policies "List" (p.setting {}).typeOf 0 p).2.2 fun site hsite => ?_
  have hmem := List.mem_map_of_mem (f := fun site => (site.outcome, site.count)) hsite
  rw [hrun] at hmem
  intro habstained
  simp [habstained] at hmem

/-- Below a literal that is left, the literals are met only by the run that leaves it. -/
example : (Program.ofText "x = f([<[<1>], 2>], [<3>]);").map (fun p =>
    (((start ⟨⟨"List", .abstain⟩, (p.setting {}).typeOf⟩ 0).program p).1.2.sites.map Site.count,
      ((start ⟨⟨"List", .proceed⟩, (p.setting {}).typeOf⟩ 0).program p).1.2.sites.map
        Site.count)) = .ok ([2, 1, 1], [2, 1]) := by
  decide +kernel

end Session

end Desugar

end ListSugar
