/-
Desugaring over and over comes to rest.

The output of a run that abstains can be read and desugared again.  What is read back is
the program of the run, without the missing elements at the ends of its initializers; what
the next run does to it is to expand some literals.  Both make the program lighter, so a
round either loses weight or does neither, and then it writes the same text once more.
Since nothing but the text is handed on, no later round changes it, and the first such
round comes no later than the weight of the program allows.
-/
import Mathlib.Data.Nat.Init
import Mathlib.Logic.Function.Iterate
import Mathlib.Tactic.Choose
import ListSugar.Proofs.Pass.Weights
import ListSugar.Proofs.RoundTrip
import ListSugar.Proofs.Typing.Resolved

namespace ListSugar

/-! ### Texts show no marks -/

namespace Expr

theorem renderAll_bareAll : ∀ {es : List Expr}, (∀ e ∈ es, e.bare.render = e.render) →
    renderAll (bareAll es) = renderAll es := by
  intro es
  induction es with
  | nil => intro _; rfl
  | cons e rest ih =>
    intro h
    rw [bareAll, renderAll, renderAll, h e (by simp), ih fun c hc => h c (by simp [hc])]

/-- A tree is written without its marks. -/
theorem render_bare (e : Expr) : e.bare.render = e.render := by
  induction e using children_induction with
  | step e ih =>
    cases e with
    | missing m => rfl
    | literal m value => rfl
    | ident m name => rfl
    | paren m inner => rw [bare, render, render, ih inner (by simp [children])]
    | unary m op operand => rw [bare, render, render, ih operand (by simp [children])]
    | binary m op left right =>
      rw [bare, render, render, ih left (by simp [children]), ih right (by simp [children])]
    | member m receiver name => rw [bare, render, render, ih receiver (by simp [children])]
    | call m callee args =>
      rw [bare, render, render, ih callee (by simp [children]),
        renderAll_bareAll fun c hc => ih c (by simp [children, hc])]
    | index m receiver args =>
      rw [bare, render, render, ih receiver (by simp [children]),
        renderAll_bareAll fun c hc => ih c (by simp [children, hc])]
    | new m ty args init =>
      have hpart : ∀ part : Option (List Expr), (∀ c ∈ part.getD [], c.bare.render = c.render) →
          argumentsText (barePart part) = argumentsText part ∧
            initializerText (barePart part) = initializerText part := by
        intro part h
        cases part with
        | none => exact ⟨rfl, rfl⟩
        | some es =>
          have hall : renderAll (bareAll es) = renderAll es := renderAll_bareAll h
          exact ⟨by simp [barePart, argumentsText, hall], by simp [barePart, initializerText, hall]⟩
      rw [bare, render_new, render_new, (hpart args fun c hc => ih c (by simp [children, hc])).1,
        (hpart init fun c hc => ih c (by simp [children, hc])).2]

end Expr

namespace Stmt

theorem bodyDepth_bare (depth : Nat) (st : Stmt) : bodyDepth depth st.bare = bodyDepth depth st := by
  cases st <;> rfl

theorem renderAllAt_bare : ∀ {stmts : List Stmt} {depth : Nat},
    (∀ p ∈ stmts, p.bare.renderAt depth = p.renderAt depth) →
    renderAllAt depth (stmts.map bare) = renderAllAt depth stmts := by
  intro stmts depth
  induction stmts with
  | nil => intro _; rfl
  | cons first rest ih =>
    intro h
    rw [List.map_cons, renderAllAt, renderAllAt, h first (by simp), ih fun p hp => h p (by simp [hp])]

/-- A statement is written without its marks. -/
theorem renderAt_bare (st : Stmt) : ∀ depth, st.bare.renderAt depth = st.renderAt depth := by
  induction st using parts_induction with
  | step st ih =>
    intro depth
    cases st with
    | declare ty name init line =>
      cases init with
      | none => rfl
      | some e => simp [bare, mapExprs, renderAt, e.render_bare]
    | assign target value => simp [bare, mapExprs, renderAt, Expr.render_bare]
    | expr value => simp [bare, mapExprs, renderAt, Expr.render_bare]
    | block stmts =>
      have hall : renderAllAt (depth + 1) (stmts.map bare) = renderAllAt (depth + 1) stmts :=
        renderAllAt_bare fun p hp => ih p (by simpa [parts] using hp) _
      rw [bare_block, renderAt, renderAt, hall]
    | branch cond thenBranch elseBranch =>
      have hthen := ih thenBranch (by simp [parts])
      cases elseBranch with
      | none =>
        show (branch cond.bare thenBranch.bare none).renderAt depth = _
        simp [renderAt, Expr.render_bare, bodyDepth_bare, hthen]
      | some other =>
        have helse := ih other (by simp [parts])
        show (branch cond.bare thenBranch.bare (some other.bare)).renderAt depth = _
        simp [renderAt, Expr.render_bare, bodyDepth_bare, hthen, helse]
    | foreach ty name iter body =>
      have hbody := ih body (by simp [parts])
      show (foreach ty name iter.bare body.bare).renderAt depth = _
      simp [renderAt, Expr.render_bare, bodyDepth_bare, hbody]

end Stmt

/-! ### Programs up to their marks

Between two rounds only the text is handed on, and it shows no marks.  So programs are
compared bare: by their weight, and where that is the same, by whether they are written
alike.
-/

namespace Expr

theorem weight_map_bare (ns : List Expr) : weight (ns.map bare) = weight ns := by
  have hindex : ∀ n : Expr, n.bare.isIndex = n.isIndex := by
    intro n
    cases n <;> rfl
  induction ns with
  | nil => rfl
  | cons n rest ih => rw [List.map_cons, weight_cons, weight_cons, hindex, isMissing_bare, ih]

/-- Whether the node is no floating literal, or a finite one. -/
def isFinite : Expr → Bool
  | .literal _ (.double value) => value.isFinite
  | _ => true

theorem isFinite_trimmed (n : Expr) : n.trimmed.isFinite = n.isFinite := by
  cases n <;> rfl

theorem isFinite_bare (n : Expr) : n.bare.isFinite = n.isFinite := by
  cases n with
  | literal m value => cases value <;> rfl
  | _ => rfl

end Expr

theorem Desugar.Setting.Rewrites.isFinite {s : Setting} {k : Nat} {e e' : Expr}
    (h : s.Rewrites k e e') (hfinite : e.isFinite = true) : e'.isFinite = true := by
  cases e' with
  | literal m value =>
    cases e with
    | literal m' value' =>
      cases h
      exact hfinite
    | index m' receiver args =>
      rcases h with h | ⟨receiver', args', -, -, heq⟩
      · obtain ⟨m, ty, args, init, heq, -⟩ := h.exists_new
        cases heq
      · cases heq
    | _ => simp [Rewrites] at h
  | _ => rfl

namespace Stmt

theorem map_bare_nodesOfAll (stmts : List Stmt) :
    (nodesOfAll stmts).map Expr.bare = nodesOfAll (stmts.map bare) := by
  rw [nodesOfAll, nodesOfAll, rootsOfAll_map fun p _ => p.roots_bare, Expr.nodesOfAll_eq,
    Expr.nodesOfAll_eq, List.map_flatMap, List.flatMap_map]
  exact List.flatMap_congr fun e _ => e.nodes_bare.symm

theorem isFinite_nodes_trimmed {stmts : List Stmt}
    (h : ∀ n ∈ nodesOfAll stmts, n.isFinite = true) :
    ∀ n ∈ nodesOfAll (stmts.map trimmed), n.isFinite = true := by
  intro n hn
  rw [nodesOfAll, rootsOfAll_map fun p _ => p.roots_trimmed, Expr.nodesOfAll_eq, List.flatMap_map,
    List.mem_flatMap] at hn
  obtain ⟨e, he, hn⟩ := hn
  refine Expr.forall_nodes_trimmed (fun n hn => n.isFinite_trimmed.trans hn) (fun n hn => h n ?_)
    n hn
  rw [nodesOfAll, Expr.nodesOfAll_eq, List.mem_flatMap]
  exact ⟨e, he, hn⟩

end Stmt

namespace Program

/-- Programs that differ in their marks only are written alike. -/
theorem render_eq_of_bare {p q : Program} (h : p.stmts.map Stmt.bare = q.stmts.map Stmt.bare) :
    p.render = q.render := by
  unfold render
  rw [← Stmt.renderAllAt_bare fun st _ => st.renderAt_bare 0, h,
    Stmt.renderAllAt_bare fun st _ => st.renderAt_bare 0]

/-- The second program is lighter than the first, or it is as heavy and written alike. -/
def Settles (p q : Program) : Prop :=
  Expr.weight q.nodes < Expr.weight p.nodes ∨
    (Expr.weight q.nodes = Expr.weight p.nodes ∧ q.render = p.render)

theorem Settles.trans {p q r : Program} (h : p.Settles q) (h' : q.Settles r) : p.Settles r := by
  rcases h with h | ⟨hw, ht⟩
  · rcases h' with h' | ⟨hw', -⟩
    · exact Or.inl (Nat.lt_trans h' h)
    · exact Or.inl (hw' ▸ h)
  · rcases h' with h' | ⟨hw', ht'⟩
    · exact Or.inl (hw ▸ h')
    · exact Or.inr ⟨hw'.trans hw, ht'.trans ht⟩

theorem Settles.weight_le {p q : Program} (h : p.Settles q) :
    Expr.weight q.nodes ≤ Expr.weight p.nodes := by
  rcases h with h | ⟨hw, -⟩
  · exact Nat.le_of_lt h
  · exact Nat.le_of_eq hw

/-! ### Reading back -/

/-- The program `q` has the statements of `p`, trimmed and with other marks. -/
def ReadBack (p q : Program) : Prop :=
  q.stmts.map Stmt.bare = p.stmts.map fun st => st.trimmed.bare

theorem ReadBack.map_bare_stmts {p q : Program} (h : p.ReadBack q) :
    q.stmts.map Stmt.bare = (p.stmts.map Stmt.trimmed).map Stmt.bare := by
  rw [h, List.map_map]
  rfl

theorem ReadBack.map_bare_nodes {p q : Program} (h : p.ReadBack q) :
    q.nodes.map Expr.bare = (Stmt.nodesOfAll (p.stmts.map Stmt.trimmed)).map Expr.bare := by
  rw [Stmt.map_bare_nodesOfAll, ← h.map_bare_stmts, ← Stmt.map_bare_nodesOfAll]
  rfl

/-- What is read back has no literals but those that were written. -/
theorem ReadBack.isFinite {p q : Program} (h : p.ReadBack q)
    (hfinite : ∀ n ∈ p.nodes, n.isFinite = true) : ∀ n ∈ q.nodes, n.isFinite = true := by
  intro n hn
  have hmem : n.bare ∈ q.nodes.map Expr.bare := List.mem_map.mpr ⟨n, hn, rfl⟩
  rw [h.map_bare_nodes] at hmem
  obtain ⟨n', hn', heq⟩ := List.mem_map.mp hmem
  rw [← n.isFinite_bare, ← heq, n'.isFinite_bare]
  exact Stmt.isFinite_nodes_trimmed hfinite n' hn'

/-- What is read back is lighter than what was written, or written alike. -/
theorem ReadBack.settles {p q : Program} (h : p.ReadBack q) : p.Settles q := by
  have hweight : Expr.weight q.nodes = Expr.weight (Stmt.nodesOfAll (p.stmts.map Stmt.trimmed)) := by
    rw [← Expr.weight_map_bare, h.map_bare_nodes, Expr.weight_map_bare]
  have htrim : Lighter Stmt.nodesOfAll p.stmts (p.stmts.map Stmt.trimmed) := by
    refine (Stmt.relatedAll_map fun st _ => st.related_trimmed).lighter ?_
    rintro e _ rfl
    exact e.lighter_trimmed
  rcases htrim with hsame | hlt
  · refine Or.inr ⟨?_, render_eq_of_bare ?_⟩
    · rw [hweight, hsame]
      rfl
    · rw [h.map_bare_stmts, hsame]
  · exact Or.inl (hweight ▸ hlt)

/-! ### Running again -/

theorem isFinite_nodes_desugar {p : Program} (h : ∀ n ∈ p.nodes, n.isFinite = true)
    (options : Options) : ∀ n ∈ (p.desugar options).program.nodes, n.isFinite = true := by
  intro n' hn'
  obtain ⟨n, hn, hR⟩ := exists_rewritten hn'
  exact hR.isFinite (h n hn)

/-- A run makes a program lighter, or leaves its statements as they are. -/
theorem settles_desugar (p : Program) (options : Options) :
    p.Settles (p.desugar options).program := by
  have hexpand : Lighter Stmt.nodesOfAll p.stmts (p.desugar options).program.stmts :=
    (p.related_desugar options).lighter Desugar.Setting.Rewrites.lighter
  rcases hexpand with hsame | hlt
  · refine Or.inr ⟨congrArg (fun stmts => Expr.weight (Stmt.nodesOfAll stmts)) hsame, ?_⟩
    exact congrArg (Stmt.renderAllAt 0) hsame
  · exact Or.inl hlt

/-- **One round.**  The output of a run that abstains is read again, and the run on what is
read either makes a lighter program or writes the same text. -/
theorem IsRead.exists_round {p : Program} (h : p.IsRead)
    (hfinite : ∀ n ∈ p.nodes, n.isFinite = true) {options : Options}
    (hcontainer : IsName options.container)
    (habstain : options.onUnresolved = .abstain) :
    ∃ q, ofText (p.desugar options).output = .ok q ∧ q.IsRead ∧
      (∀ n ∈ q.nodes, n.isFinite = true) ∧
      (p.desugar options).program.Settles (q.desugar options).program := by
  have hdesugared := isFinite_nodes_desugar hfinite options
  obtain ⟨q, hq, hback⟩ := h.exists_ofText_output hcontainer (h.resolved_desugar habstain)
    fun m value hmem => hdesugared _ hmem
  have hback : (p.desugar options).program.ReadBack q := hback
  refine ⟨q, hq, isRead_of_ofText hq, hback.isFinite hdesugared, ?_⟩
  exact hback.settles.trans (settles_desugar q options)

/-! ### All rounds

The weight is a natural number, so some round does not lower it, and the number of rounds
before that one is at most the weight at the start.  That round writes the text it was
given.  A run depends on nothing but its text, so every round from there on does the same.
-/

/-- The programs that are read, round after round. -/
theorem IsRead.exists_rounds {p : Program} (h : p.IsRead)
    (hfinite : ∀ n ∈ p.nodes, n.isFinite = true) {options : Options}
    (hcontainer : IsName options.container)
    (habstain : options.onUnresolved = .abstain) :
    ∃ q : Nat → Program, q 0 = p ∧ ∀ i,
      ofText ((q i).desugar options).output = .ok (q (i + 1)) ∧
        ((q i).desugar options).program.Settles ((q (i + 1)).desugar options).program := by
  -- The invariant of the rounds goes into the type, so that each of them can be chosen.
  have hround : ∀ p : { p : Program // p.IsRead ∧ ∀ n ∈ p.nodes, n.isFinite = true },
      ∃ q : { p : Program // p.IsRead ∧ ∀ n ∈ p.nodes, n.isFinite = true },
        ofText (p.val.desugar options).output = .ok q.val ∧
          (p.val.desugar options).program.Settles (q.val.desugar options).program := by
    rintro ⟨p, hread, hfinite⟩
    obtain ⟨q, hq, hread', hfinite', hsettles⟩ :=
      hread.exists_round hfinite hcontainer habstain
    exact ⟨⟨q, hread', hfinite'⟩, hq, hsettles⟩
  choose next hnext using hround
  refine ⟨fun i => (next^[i] ⟨p, h, hfinite⟩).val, rfl, fun i => ?_⟩
  simp only [Function.iterate_succ_apply']
  exact hnext _

/-- Programs that settle step by step are written alike at some step, which comes no later
than the weight at the start allows. -/
theorem exists_render_eq_of_settles {q : Nat → Program} (h : ∀ i, (q i).Settles (q (i + 1))) :
    ∃ k ≤ Expr.weight (q 0).nodes, (q (k + 1)).render = (q k).render := by
  by_contra hnone
  -- As long as no text was written twice, every step has cost weight.
  have hfall : ∀ k ≤ Expr.weight (q 0).nodes + 1,
      Expr.weight (q k).nodes + k ≤ Expr.weight (q 0).nodes := by
    intro k
    induction k with
    | zero => intro _; omega
    | succ k ih =>
      intro hk
      have hlt : Expr.weight (q (k + 1)).nodes < Expr.weight (q k).nodes :=
        (h k).resolve_right fun hkept => hnone ⟨k, by omega, hkept.2⟩
      have := ih (by omega)
      omega
  have := hfall _ (Nat.le_refl _)
  omega

end Program

/-- Once a round has kept the text, all later rounds keep it. -/
theorem output_eq_of_kept {options : Options} {d : Nat → Desugared}
    (hd : ∀ i, desugar (d i).output options = .ok (d (i + 1))) {k : Nat}
    (hkept : (d (k + 1)).output = (d k).output) : ∀ j ≥ k, (d j).output = (d k).output := by
  intro j hj
  induction j, hj using Nat.le_induction with
  | base => rfl
  | succ j _ ih =>
    have hsame : Except.ok (d (j + 1)) = (Except.ok (d (k + 1)) : Except SourceError Desugared) := by
      rw [← hd j, ← hd k, ih]
    rw [Except.ok.inj hsame, hkept]

/-- **Desugaring the output again and again comes to rest.**  Under the policy to abstain no
round fails, and there is a round, numbered by no more than the element accesses and missing
operands of the program at the start, from which on the output stays the same. -/
theorem desugar_comes_to_rest {source : String} {p : Program} (hp : Program.ofText source = .ok p)
    {options : Options} (habstain : options.onUnresolved = .abstain)
    (hcontainer : ∃ found, tokenize options.container = .ok found ∧
      found.map Located.token = [.ident options.container, .eof])
    (hdouble : ∀ m value, .literal m (.double value) ∈ p.nodes → value.isFinite = true) :
    ∃ d : Nat → Desugared, desugar source options = .ok (d 0) ∧
      (∀ i, desugar (d i).output options = .ok (d (i + 1))) ∧
      ∃ k ≤ p.nodes.countP Expr.isIndex + p.nodes.countP Expr.isMissing,
        ∀ j ≥ k, (d j).output = (d k).output := by
  have hfinite : ∀ n ∈ p.nodes, n.isFinite = true := by
    intro n hn
    unfold Expr.isFinite
    split
    · exact hdouble _ _ hn
    · rfl
  obtain ⟨q, hstart, hround⟩ :=
    (Program.isRead_of_ofText hp).exists_rounds hfinite (isName_of_tokenize hcontainer) habstain
  have hnext : ∀ i, desugar ((q i).desugar options).output options
      = .ok ((q (i + 1)).desugar options) := fun i =>
    desugar_of_ofText (hround i).1 options
  obtain ⟨k, hk, hkept⟩ := Program.exists_render_eq_of_settles fun i => (hround i).2
  refine ⟨fun i => (q i).desugar options, ?_, hnext, k, ?_, output_eq_of_kept hnext hkept⟩
  · rw [desugar_of_ofText hp, ← hstart]
  · refine Nat.le_trans hk ?_
    rw [hstart]
    exact (p.settles_desugar options).weight_le

/-- A literal inside another one is expanded in the second round, and both rounds keep within
the bound that the first program gives. -/
theorem desugar_comes_to_rest_nested : ∃ d : Nat → Desugared,
    desugar "var x = [<0.5, [<2>]>];" {} = .ok (d 0) ∧
      (∀ i, desugar (d i).output {} = .ok (d (i + 1))) ∧
      (d 0).output = "var x = new List<double> \x7b 0.5, [< 2 >] \x7d;\n" ∧
      (d 1).output = "var x = new List<double> \x7b 0.5, new List<int> \x7b 2 \x7d \x7d;\n" ∧
      ∃ k ≤ 8, ∀ j ≥ k, (d j).output = (d k).output := by
  have hrun : (Program.ofText "var x = [<0.5, [<2>]>];").map (fun p =>
      (p.nodes.all Expr.isFinite, p.nodes.countP Expr.isIndex + p.nodes.countP Expr.isMissing,
        (p.desugar {}).output)) =
      .ok (true, 8, "var x = new List<double> \x7b 0.5, [< 2 >] \x7d;\n") := by
    decide +kernel
  have hagain : (desugar "var x = new List<double> \x7b 0.5, [< 2 >] \x7d;\n" {}).map
      Desugared.output =
      .ok "var x = new List<double> \x7b 0.5, new List<int> \x7b 2 \x7d \x7d;\n" := by
    decide +kernel
  obtain ⟨p, hp, hrun⟩ := map_eq_ok_iff.mp hrun
  obtain ⟨hfinite, hbound, houtput⟩ : (∀ n ∈ p.nodes, n.isFinite = true) ∧
      p.nodes.countP Expr.isIndex + p.nodes.countP Expr.isMissing = 8 ∧
        (p.desugar {}).output = _ := by
    simpa using hrun
  obtain ⟨d, hstart, hnext, hrest⟩ := @desugar_comes_to_rest _ p hp {} rfl
    (map_eq_ok_iff.mp (by decide +kernel)) fun m value hmem => hfinite _ hmem
  have hzero : p.desugar {} = d 0 :=
    Except.ok.inj ((desugar_of_ofText hp {}).symm.trans hstart)
  rw [hzero] at houtput
  rw [← houtput, hnext 0] at hagain
  rw [hbound] at hrest
  exact ⟨d, hstart, hnext, houtput, Except.ok.inj hagain, hrest⟩

end ListSugar
