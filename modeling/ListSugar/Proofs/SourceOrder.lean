/-
Reports come in the order of the source.

The parts of a node stand on stretches of its tokens, one behind the other.  A stretch takes
in the token behind the part, since that is where a missing part stands; no two stretches
share a token.  A node stands on the first token of all, where its first part may stand too.
So the places of nodes never go back, a node before its parts.

Diagnostics are about fewer nodes.  A missing node has no parts, and a construction in place
of a literal stands in front of the bracket that its elements are behind, so between any two
of them the place moves on.
-/
import Mathlib.Data.Prod.Lex
import ListSugar.Proofs.Appended
import ListSugar.Proofs.Grammar.Placed
import ListSugar.Proofs.Pass.Numbers
import ListSugar.Proofs.Typing.Resolved

namespace ListSugar

/-! ### Places in lexicographic order -/

namespace Pos

/-- The line of a place, then its column. -/
def key (p : Pos) : ℕ ×ₗ ℕ := toLex (p.line, p.col)

theorem key_lt_key_iff {p q : Pos} :
    p.key < q.key ↔ p.line < q.line ∨ p.line = q.line ∧ p.col < q.col :=
  Prod.Lex.toLex_lt_toLex

theorem key_lt_after (p : Pos) (c : Char) : p.key < (p.after c).key := by
  rw [key_lt_key_iff]
  unfold after
  split
  · exact Or.inl (Nat.lt_succ_self _)
  · exact Or.inr ⟨rfl, Nat.lt_succ_self _⟩

theorem key_le_past (p : Pos) (cs : List Char) : p.key ≤ (p.past cs).key := by
  induction cs generalizing p with
  | nil => exact le_refl _
  | cons c rest ih => exact (p.key_lt_after c).le.trans (ih (p.after c))

theorem key_lt_past (p : Pos) {cs : List Char} (h : cs ≠ []) : p.key < (p.past cs).key := by
  cases cs with
  | nil => exact absurd rfl h
  | cons c rest => exact (p.key_lt_after c).trans_le (key_le_past _ rest)

end Pos

/-- The tokens stand one after the other. -/
def Advancing (ts : List Located) : Prop := ts.Pairwise fun t u => t.pos.key < u.pos.key

/-- **The tokens of a text stand one after the other, from its beginning on.** -/
theorem LexesAt.advancing {p : Pos} {cs : List Char} {found : List Located}
    (h : LexesAt p cs found) : Advancing found ∧ ∀ t ∈ found, p.key ≤ t.pos.key := by
  induction h with
  | nil => exact ⟨.nil, fun t ht => by cases ht⟩
  | @gap p c rest found _ _ ih =>
    refine ⟨ih.1, fun t ht => ?_⟩
    exact (p.key_le_past _).trans (ih.2 t ht)
  | @token p c rest k found _ _ ih =>
    have hstep := p.key_lt_past (Scanner.piece_taken_ne_nil c rest)
    refine ⟨List.pairwise_cons.mpr ⟨fun t ht => hstep.trans_le (ih.2 t ht), ih.1⟩, fun t ht => ?_⟩
    rcases List.mem_cons.mp ht with rfl | ht
    · exact le_refl _
    · exact hstep.le.trans (ih.2 t ht)

/-! ### Places on tokens

An order of places is carried through appending once it is known that they are places of
tokens, since the tokens are in order.  The relation is a parameter: strict for defects,
and weak for nodes and sites, where two may share a place.
-/

/-- The places are places of the tokens, and the earlier ones are related to the later. -/
structure InOrder (R : Pos → Pos → Prop) (ts : List Located) (ps : List Pos) : Prop where
  ordered : ps.Pairwise R
  mem : ∀ p ∈ ps, ∃ t ∈ ts, t.pos = p

namespace InOrder

variable {R : Pos → Pos → Prop} {ts us : List Located} {ps qs : List Pos}

theorem nil (ts : List Located) : InOrder R ts [] := ⟨.nil, fun p hp => by cases hp⟩

theorem singleton {t : Located} (h : t ∈ ts) : InOrder R ts [t.pos] := by
  refine ⟨List.pairwise_singleton _ _, fun p hp => ⟨t, h, ?_⟩⟩
  rw [List.mem_singleton.mp hp]

theorem mono (h : InOrder R us ps) (hsub : us ⊆ ts) : InOrder R ts ps := by
  refine ⟨h.ordered, fun p hp => ?_⟩
  obtain ⟨t, ht, rfl⟩ := h.mem p hp
  exact ⟨t, hsub ht, rfl⟩

theorem sublist (h : InOrder R ts ps) (hsub : qs.Sublist ps) : InOrder R ts qs :=
  ⟨h.ordered.sublist hsub, fun q hq => h.mem q (hsub.subset hq)⟩

/-- Places on tokens and places on later tokens are in order together. -/
theorem append (hR : ∀ {p q : Pos}, p.key < q.key → R p q) (h : InOrder R ts ps)
    (h' : InOrder R us qs) (hts : Advancing (ts ++ us)) : InOrder R (ts ++ us) (ps ++ qs) := by
  have hcross := (List.pairwise_append.mp hts).2.2
  refine ⟨List.pairwise_append.mpr ⟨h.ordered, h'.ordered, fun p hp q hq => ?_⟩, fun p hp => ?_⟩
  · obtain ⟨t, ht, rfl⟩ := h.mem p hp
    obtain ⟨u, hu, rfl⟩ := h'.mem q hq
    exact hR (hcross t ht u hu)
  · rcases List.mem_append.mp hp with hp | hp
    · exact (h.mono (List.subset_append_left _ _)).mem p hp
    · exact (h'.mono (List.subset_append_right _ _)).mem p hp

/-- The place of the first token comes before all places on the tokens, or is the first. -/
theorem cons_head {t : Located} (h : InOrder (fun p q => p.key ≤ q.key) (t :: ts) ps)
    (hts : Advancing (t :: ts)) : InOrder (fun p q => p.key ≤ q.key) (t :: ts) (t.pos :: ps) := by
  refine ⟨List.pairwise_cons.mpr ⟨fun p hp => ?_, h.ordered⟩, fun p hp => ?_⟩
  · obtain ⟨u, hu, rfl⟩ := h.mem p hp
    rcases List.mem_cons.mp hu with rfl | hu
    · exact le_refl _
    · exact ((List.pairwise_cons.mp hts).1 u hu).le
  · rcases List.mem_cons.mp hp with rfl | hp
    · exact ⟨t, by simp, rfl⟩
    · exact h.mem p hp

end InOrder

namespace Expr

/-! ### Stretches

A missing part stands at the token behind it, which is not one of its own.  So the stretch
of a part takes in that token as well.  Two parts have a token between them, which is why
their stretches are still apart.
-/

/-- The trees stand on stretches of the tokens, one behind the other.  A stretch is the
tokens of a tree and the one behind them. -/
def OnStretches : List Expr → List Located → Prop
  | [], _ => True
  | e :: rest, ts => ∃ us next vs, e.PlacedOn us next ∧ OnStretches rest vs ∧
      (us ++ [next] ++ vs).Sublist ts

namespace OnStretches

theorem mono {es : List Expr} {ts us : List Located} (h : OnStretches es ts)
    (hsub : ts.Sublist us) : OnStretches es us := by
  cases es with
  | nil => exact trivial
  | cons e rest =>
    obtain ⟨xs, next, ys, he, hrest, hsub'⟩ := h
    exact ⟨xs, next, ys, he, hrest, hsub'.trans hsub⟩

theorem append {bs : List Expr} {us : List Located} (hbs : OnStretches bs us) :
    ∀ {as : List Expr} {ts : List Located}, OnStretches as ts →
      OnStretches (as ++ bs) (ts ++ us) := by
  intro as
  induction as with
  | nil =>
    intro ts _
    exact hbs.mono (List.sublist_append_right ts us)
  | cons e rest ih =>
    rintro ts ⟨xs, next, ys, he, hrest, hsub⟩
    refine ⟨xs, next, ys ++ us, he, ih hrest, ?_⟩
    rw [← List.append_assoc]
    exact hsub.append_right us

theorem singleton {e : Expr} {ts : List Located} {next : Located} (h : e.PlacedOn ts next) :
    OnStretches [e] (ts ++ [next]) :=
  ⟨ts, next, [], h, trivial, by rw [List.append_nil]⟩

end OnStretches

theorem PlacedAll.stretches : ∀ {es : List Expr} {ts : List Located} {next : Located},
    PlacedAll es ts next → OnStretches es (ts ++ [next]) := by
  intro es
  induction es with
  | nil => intro ts next _; exact trivial
  | cons e rest ih =>
    rintro ts next ⟨us, vs, he, hrest, rfl⟩
    cases rest with
    | nil =>
      obtain rfl : vs = [] := hrest
      rw [List.append_nil]
      exact .singleton he
    | cons second others =>
      obtain ⟨comma, xs, ys, -, hsecond, hothers, rfl⟩ := hrest
      refine ⟨us, comma, xs ++ ys ++ [next], he, ih ⟨xs, ys, hsecond, hothers, rfl⟩, ?_⟩
      simp

theorem PlacedArguments.stretches {args : Option (List Expr)} {ts : List Located}
    (h : PlacedArguments args ts) : OnStretches (args.getD []) ts := by
  cases args with
  | none => exact trivial
  | some es =>
    obtain ⟨opening, us, closing, -, hes, -, rfl⟩ := h
    exact hes.stretches.mono (List.sublist_cons_self _ _)

theorem PlacedInitializer.stretches {init : Option (List Expr)} {ts : List Located}
    (h : PlacedInitializer init ts) : OnStretches (init.getD []) ts := by
  cases init with
  | none => exact trivial
  | some es =>
    obtain ⟨opening, us, extra, closing, -, hes, -, -, rfl⟩ := h
    refine hes.stretches.mono (.cons _ (.append_left ?_ us))
    cases extra with
    | nil => exact .refl _
    | cons comma more => simp

/-- **The parts of a node stand on stretches of its tokens.** -/
theorem PlacedOn.stretches {e : Expr} {ts : List Located} {next : Located}
    (h : e.PlacedOn ts next) : OnStretches e.children (ts ++ [next]) := by
  cases e with
  | missing m => exact trivial
  | literal m value => exact trivial
  | ident m name => exact trivial
  | paren m inner =>
    obtain ⟨-, opening, us, closing, -, hinner, -, rfl⟩ := h
    refine (OnStretches.singleton hinner).mono ?_
    exact (List.sublist_cons_self _ _).trans (List.sublist_append_left _ _)
  | unary m op operand =>
    obtain ⟨-, sign, us, -, hoperand, rfl⟩ := h
    exact (OnStretches.singleton hoperand).mono (List.sublist_cons_self _ _)
  | binary m op left right =>
    obtain ⟨-, us, sign, vs, hleft, -, hright, rfl⟩ := h
    refine ((OnStretches.singleton hright).append (.singleton hleft)).mono ?_
    simp
  | member m receiver name =>
    obtain ⟨-, us, dot, word, hreceiver, -, -, rfl⟩ := h
    refine (OnStretches.singleton hreceiver).mono ?_
    simp
  | call m callee args =>
    obtain ⟨-, us, opening, vs, closing, hcallee, -, hargs, -, rfl⟩ := h
    refine (hargs.stretches.append (.singleton hcallee)).mono ?_
    simp
  | index m receiver args =>
    obtain ⟨-, us, opening, vs, closing, hreceiver, -, hargs, -, rfl⟩ := h
    refine (hargs.stretches.append (.singleton hreceiver)).mono ?_
    simp
  | new m ty args init =>
    obtain ⟨-, word, us, vs, ws, -, -, hargs, hinit, rfl⟩ := h
    refine (hinit.stretches.append hargs.stretches).mono ?_
    exact ((List.sublist_append_right us _).cons word).trans (List.sublist_append_left _ _)

/-- A node stands on the first of its stretch. -/
theorem PlacedOn.pos_eq {e : Expr} {ts : List Located} {next : Located}
    (h : e.PlacedOn ts next) : e.pos = (ts.headD next).pos := by
  cases e <;> exact h.1

theorem exists_cons_headD (ts : List Located) (next : Located) :
    ∃ rest, ts ++ [next] = ts.headD next :: rest := by
  cases ts with
  | nil => exact ⟨[], rfl⟩
  | cons t rest => exact ⟨rest ++ [next], rfl⟩

/-! ### Nodes -/

theorem OnStretches.nodes_inOrder : ∀ {es : List Expr} {ts : List Located}, OnStretches es ts →
    Advancing ts → (∀ e ∈ es, ∀ {us next}, e.PlacedOn us next → Advancing (us ++ [next]) →
      InOrder (fun p q => p.key ≤ q.key) (us ++ [next]) (e.nodes.map Expr.pos)) →
    InOrder (fun p q => p.key ≤ q.key) ts ((es.flatMap nodes).map Expr.pos) := by
  intro es
  induction es with
  | nil => intro ts _ _ _; exact .nil ts
  | cons e rest ih =>
    rintro ts ⟨us, next, vs, he, hrest, hsub⟩ hts h
    have hall : Advancing (us ++ [next] ++ vs) := hts.sublist hsub
    obtain ⟨hleft, hright, -⟩ := List.pairwise_append.mp hall
    have hfirst := h e (by simp) he hleft
    have hothers := ih hrest hright fun c hc => h c (by simp [hc])
    rw [List.flatMap_cons, List.map_append]
    exact (hfirst.append le_of_lt hothers hall).mono hsub.subset

/-- **The places of the nodes of a tree never go back.** -/
theorem PlacedOn.nodes_inOrder {e : Expr} : ∀ {ts : List Located} {next : Located},
    e.PlacedOn ts next → Advancing (ts ++ [next]) →
    InOrder (fun p q => p.key ≤ q.key) (ts ++ [next]) (e.nodes.map Expr.pos) := by
  induction e using children_induction with
  | step e ih =>
    intro ts next h hts
    have hparts := h.stretches.nodes_inOrder hts ih
    obtain ⟨rest, hrest⟩ := exists_cons_headD ts next
    rw [nodes_eq, List.map_cons, h.pos_eq]
    rw [hrest] at hparts hts ⊢
    exact hparts.cons_head hts

end Expr

namespace Desugar.Setting

variable {s : Setting} {k : Nat}

/-! ### Defects

Below a defect there may be another one only if a construction has a gap in its type.  Its
elements are behind the bracket that opens the literal, and the construction stands in
front of it.
-/

/-- The places of the nodes that have a defect. -/
def defectPlaces (ns : List Expr) : List Pos := (ns.filterMap Diagnostic.ofNode).map Diagnostic.pos

theorem defectPlaces_append (ns ms : List Expr) :
    defectPlaces (ns ++ ms) = defectPlaces ns ++ defectPlaces ms := by
  simp [defectPlaces]

theorem defectPlaces_sublist {ns ms : List Expr} (h : ns.Sublist ms) :
    (defectPlaces ns).Sublist (defectPlaces ms) :=
  (h.filterMap _).map _

theorem defectPlaces_singleton_sublist (n : Expr) : (defectPlaces [n]).Sublist [n.pos] := by
  cases n with
  | missing m => exact .refl _
  | new m ty args init =>
    by_cases hres : ty.isResolved = true
    · simp [defectPlaces, Diagnostic.ofNode, hres]
    · simp [defectPlaces, Diagnostic.ofNode, hres, Expr.pos, Expr.mark]
  | _ => exact List.nil_sublist _

/-- A node without a gap in its type is missing and has no parts, or has only the defects of
its parts. -/
theorem defectPlaces_nodes {n : Expr} (h : n.ResolvedNode) :
    defectPlaces n.nodes = [n.pos] ∨
      defectPlaces n.nodes = defectPlaces (n.children.flatMap Expr.nodes) := by
  rw [Expr.nodes_eq]
  cases n with
  | missing m => exact Or.inl rfl
  | new m ty args init =>
    have hres : ty.isResolved = true := h
    exact Or.inr (by simp [defectPlaces, Diagnostic.ofNode, hres])
  | _ => exact Or.inr rfl

/-- However the tree is rewritten, between any two of its defects the place moves on. -/
def DefectsInOrder (s : Setting) (k : Nat) (e : Expr) : Prop :=
  ∀ e' ts next, s.Rewrites k e e' → e.PlacedOn ts next → Advancing (ts ++ [next]) →
    InOrder (fun p q => p.key < q.key) (ts ++ [next]) (defectPlaces e'.nodes)

theorem RewritesAll.defects_inOrder : ∀ {es es' : List Expr} {ts : List Located},
    s.RewritesAll k es es' → Expr.OnStretches es ts → Advancing ts →
    (∀ e ∈ es, s.DefectsInOrder k e) →
    InOrder (fun p q => p.key < q.key) ts (defectPlaces (es'.flatMap Expr.nodes)) := by
  intro es
  induction es with
  | nil =>
    rintro es' ts rfl _ _ _
    exact .nil ts
  | cons e rest ih =>
    rintro es' ts ⟨e', rest', he, hrest, rfl⟩ ⟨us, next, vs, hplaced, hstretches, hsub⟩ hts h
    have hall : Advancing (us ++ [next] ++ vs) := hts.sublist hsub
    obtain ⟨hleft, hright, -⟩ := List.pairwise_append.mp hall
    have hfirst := h e (by simp) e' us next he hplaced hleft
    have hothers := ih hrest hstretches hright fun c hc => h c (by simp [hc])
    rw [List.flatMap_cons, defectPlaces_append]
    exact (hfirst.append id hothers hall).mono hsub.subset

/-- A construction stands in front of the bracket that its elements are behind. -/
theorem Replaces.defects_inOrder {e e' : Expr} (h : s.Replaces k e e') {ts : List Located}
    {next : Located} (hplaced : e.PlacedOn ts next) (hts : Advancing (ts ++ [next]))
    (hparts : ∀ c ∈ e.children, s.DefectsInOrder k c) :
    InOrder (fun p q => p.key < q.key) (ts ++ [next]) (defectPlaces e'.nodes) := by
  obtain ⟨site, elements, number, hj, -, rfl⟩ := h
  obtain ⟨m, receiver, args, shape, rfl, hshape, rfl, -⟩ := judge_eq_expand hj
  obtain ⟨hpos, us, opening, vs, closing, -, -, hargs, -, rfl⟩ := hplaced
  obtain ⟨rest, hrest⟩ := Expr.exists_cons_headD us opening
  have hsplit : us ++ opening :: (vs ++ [closing]) ++ [next] =
      us ++ [opening] ++ (vs ++ [closing]) ++ [next] := by simp
  have hheadD : (us ++ opening :: (vs ++ [closing])).headD next = us.headD opening := by
    cases us <;> rfl
  rw [hheadD] at hpos
  rw [hsplit] at hts ⊢
  have hwithin := (List.pairwise_append.mp hts).1
  have hroot : InOrder (fun p q => p.key < q.key) (us ++ [opening]) [m.pos] := by
    rw [hpos]
    exact .singleton (by simp [hrest])
  have hbehind := RewritesAll.defects_inOrder (s := s) (k := k)
    (rewritesAll_refl fun c _ => Rewrites.refl c) hargs.stretches
    (List.pairwise_append.mp hwithin).2.1 fun c hc => hparts c (by simp [Expr.children, hc])
  have hall := (hroot.append id hbehind hwithin).mono (List.subset_append_left _ [next])
  refine hall.sublist ?_
  rw [Expr.nodes_eq, children_construct, ← List.singleton_append, defectPlaces_append]
  have helements := Expr.elements_sublist_of_delimitedArgs? hshape
  refine List.Sublist.append ?_ (defectPlaces_sublist helements)
  have hnew := defectPlaces_singleton_sublist
    (Expr.construct s.options.container site.ty ⟨number, m.pos⟩ shape.elements)
  rwa [Expr.pos, mark_construct] at hnew

/-- **Between any two defects of a rewritten tree the place moves on.** -/
theorem defectsInOrder {e : Expr} : e.Resolved → s.DefectsInOrder k e := by
  induction e using Expr.children_induction with
  | step e ih =>
    intro hres e' ts next h hplaced hts
    obtain ⟨hnode, hchildren⟩ := Expr.resolved_iff.mp hres
    have hparts : ∀ c ∈ e.children, s.DefectsInOrder k c := fun c hc => ih c hc (hchildren c hc)
    by_cases hreplaces : s.Replaces k e e'
    · exact hreplaces.defects_inOrder hplaced hts hparts
    · obtain ⟨hmark, hrewrites⟩ := h.replaces_or_children.resolve_left hreplaces
      have hkept := (h.replaces_or_resolved hnode).resolve_left hreplaces
      rcases defectPlaces_nodes hkept with heq | heq
      · obtain ⟨rest, hrest⟩ := Expr.exists_cons_headD ts next
        rw [heq, Expr.pos, hmark, ← Expr.pos, hplaced.pos_eq]
        exact .singleton (by simp [hrest])
      · rw [heq]
        exact hrewrites.defects_inOrder hplaced.stretches hts hparts

/-! ### Sites

A literal is noted where its node stands.  The sites of a walk are therefore found among
the places of the nodes, in the same order, and they inherit the weak order of these.
-/

theorem sites_sublist_of : ∀ {es : List Expr}, (∀ e ∈ es, ∀ n,
      ((sitesOf (s.expr e n).visits).map Site.pos).Sublist (e.nodes.map Expr.pos)) → ∀ n,
    ((sitesOf (s.exprs es n).visits).map Site.pos).Sublist
      ((es.flatMap Expr.nodes).map Expr.pos) := by
  intro es
  induction es with
  | nil => intro _ n; exact .refl _
  | cons e rest ih =>
    intro h n
    have hfirst := h e (by simp) n
    have hrest := ih (fun c hc => h c (by simp [hc])) (s.expr e n).nextId
    simp only [exprs_cons, sitesOf_append, List.map_append, List.flatMap_cons]
    exact hfirst.append hrest

/-- A node that is noted as a literal is noted where it stands. -/
theorem sites_notes_sublist (e : Expr) :
    ((sitesOf ((s.judge e).notes e.pos)).map Site.pos).Sublist [e.pos] := by
  cases hj : s.judge e with
  | other => exact List.nil_sublist _
  | access => exact List.nil_sublist _
  | leave site =>
    obtain ⟨shape, -, -, rfl⟩ := judge_eq_leave hj
    exact .refl _
  | expand site elements =>
    obtain ⟨m, receiver, args, shape, rfl, -, -, rfl⟩ := judge_eq_expand hj
    exact .refl _

/-- **The sites of a walk stand where nodes of the tree do, in order.** -/
theorem sites_sublist (e : Expr) : ∀ n,
    ((sitesOf (s.expr e n).visits).map Site.pos).Sublist (e.nodes.map Expr.pos) := by
  induction e using Expr.children_induction with
  | step e ih =>
    intro n
    have hnotes := s.sites_notes_sublist e
    rw [Expr.nodes_eq, List.map_cons]
    by_cases hexpand : (s.judge e).Expands
    · obtain ⟨site, elements, hj⟩ := hexpand
      rw [hj] at hnotes
      rw [s.expr_of_expand hj]
      exact hnotes.trans (List.singleton_sublist.mpr (by simp))
    · rw [(kept hexpand n).visits, sitesOf_append, List.map_append]
      exact hnotes.append (sites_sublist_of ih n)

end Desugar.Setting

namespace Stmt

/-! ### Statements -/

theorem placedAll_stretches : ∀ {stmts : List Stmt} {ts : List Located} {next : Located},
    PlacedAll stmts ts next →
    (∀ p ∈ stmts, ∀ {us next}, p.PlacedOn us next → Expr.OnStretches p.roots us) →
    Expr.OnStretches (rootsOfAll stmts) ts := by
  intro stmts
  induction stmts with
  | nil => intro ts next _ _; exact trivial
  | cons first rest ih =>
    rintro ts next ⟨us, vs, hfirst, hrest, rfl⟩ h
    exact (ih hrest fun p hp => h p (by simp [hp])).append (h first (by simp) hfirst)

/-- **The expressions of a statement stand on stretches of its tokens.** -/
theorem PlacedOn.stretches {st : Stmt} : ∀ {ts : List Located} {next : Located},
    st.PlacedOn ts next → Expr.OnStretches st.roots ts := by
  induction st using parts_induction with
  | step st ih =>
    intro ts next h
    cases st with
    | declare ty name init line =>
      obtain ⟨-, us, word, vs, semi, -, -, hinit, -, rfl⟩ := h
      cases init with
      | none => exact trivial
      | some e =>
        obtain ⟨sign, xs, -, he, rfl⟩ := hinit
        have hsuffix : xs ++ [semi] <:+ us ++ word :: (sign :: xs ++ [semi]) :=
          ⟨us ++ [word, sign], by simp⟩
        exact (Expr.OnStretches.singleton he).mono hsuffix.sublist
    | assign target value =>
      obtain ⟨us, sign, vs, semi, htarget, -, hvalue, -, rfl⟩ := h
      refine ((Expr.OnStretches.singleton hvalue).append (.singleton htarget)).mono ?_
      simp
    | expr value =>
      obtain ⟨us, semi, hvalue, -, rfl⟩ := h
      exact .singleton hvalue
    | block stmts =>
      obtain ⟨opening, us, closing, -, hall, -, rfl⟩ := h
      refine (placedAll_stretches hall fun p hp => ih p (by simpa [parts] using hp)).mono ?_
      exact (List.sublist_append_left us [closing]).cons opening
    | branch cond thenBranch elseBranch =>
      obtain ⟨word, opening, us, closing, vs, ws, -, -, hcond, -, hthen, helse, rfl⟩ := h
      have helse' : Expr.OnStretches (elseBranch.toList.flatMap roots) ws := by
        cases elseBranch with
        | none => exact trivial
        | some other =>
          obtain ⟨word, xs, -, hother, rfl⟩ := helse
          have hroots := ih other (by simp [parts]) hother
          simpa using hroots.mono (List.sublist_cons_self word xs)
      have hbranches := helse'.append (ih thenBranch (by simp [parts]) hthen)
      rw [roots_branch]
      refine (hbranches.append (.singleton hcond)).mono ?_
      simp
    | foreach ty name iter body =>
      obtain ⟨word, opening, us, declared, within, vs, closing, ws, -, -, -, -, -, hiter, -, hbody,
        rfl⟩ := h
      have hsuffix : vs ++ [closing] ++ ws <:+
          word :: opening :: (us ++ declared :: within :: (vs ++ closing :: ws)) :=
        ⟨word :: opening :: (us ++ [declared, within]), by simp⟩
      exact ((ih body (by simp [parts]) hbody).append (.singleton hiter)).mono hsuffix.sublist

end Stmt

/-! ### Programs -/

/-- The expressions of a program that was read stand on stretches of tokens, one after the
other. -/
theorem Program.stretches_of_ofText {source : String} {p : Program} (h : ofText source = .ok p) :
    ∃ found, Advancing found ∧ Expr.OnStretches p.roots found := by
  obtain ⟨found, t, hlexes, hparse⟩ := ofText_eq_ok_iff.mp h
  obtain ⟨ts, hpass, hplaced⟩ :=
    Stmt.spansAll_placed (Parser.program_spans hparse).1 fun _ _ => Stmt.Spans.placed
  have hfound : found = ts ++ t.unread := hpass.unread
  have hstretches := Stmt.placedAll_stretches hplaced fun _ _ => Stmt.PlacedOn.stretches
  refine ⟨found, hlexes.advancing.1, hstretches.mono ?_⟩
  rw [hfound]
  exact List.sublist_append_left ts t.unread

/-- **Reports come in the order of the source.**  The places of the diagnostics go up from
each one to the next, by line and then by column, so no two share a place; those of the
report's sites never go back. -/
theorem desugar_in_source_order {source : String} {options : Options} {d : Desugared}
    (h : desugar source options = .ok d) :
    (d.diagnostics.map fun x => toLex (x.pos.line, x.pos.col)).Pairwise (· < ·) ∧
      (d.report.sites.map fun site => toLex (site.pos.line, site.pos.col)).Pairwise (· ≤ ·) := by
  obtain ⟨p, hp, rfl⟩ := desugar_eq_ok_iff.mp h
  obtain ⟨found, hfound, hstretches⟩ := Program.stretches_of_ofText hp
  have hread := Program.isRead_of_ofText hp
  have hwalk := p.exprs_desugar options
  constructor
  · have hrewrites := Desugar.Setting.exprs_rewrites (s := p.setting options) (k := p.nextId)
      (fun e (_ : e ∈ p.roots) => Desugar.Setting.expr_rewrites e) (Nat.le_refl p.nextId)
    have hdefects := hrewrites.defects_inOrder hstretches hfound
      fun e he => Desugar.Setting.defectsInOrder (hread.resolved e he)
    rw [hwalk, ← Program.nodes_eq_flatMap] at hdefects
    have hordered := hdefects.ordered
    rw [Desugar.Setting.defectPlaces, List.pairwise_map] at hordered
    exact List.pairwise_map.mpr hordered
  · have hnodes := hstretches.nodes_inOrder hfound fun e _ => Expr.PlacedOn.nodes_inOrder
    have hsites := Desugar.Setting.sites_sublist_of (s := p.setting options)
      (fun e (_ : e ∈ p.roots) => Desugar.Setting.sites_sublist e) p.nextId
    rw [hwalk] at hsites
    have hordered := (hnodes.sublist hsites).ordered
    rw [List.pairwise_map] at hordered
    exact List.pairwise_map.mpr hordered

/-- An access to the element of a literal stands where the literal does, so the places of the
sites need not go up strictly. -/
theorem desugar_in_source_order_shared : ∃ d, desugar "x = [<1>][<y>] + ;" {} = .ok d ∧
    d.diagnostics.map Diagnostic.pos = [⟨1, 11⟩, ⟨1, 14⟩, ⟨1, 18⟩] ∧
    d.report.sites.map Site.pos = [⟨1, 5⟩, ⟨1, 5⟩] ∧
    (d.diagnostics.map fun x => toLex (x.pos.line, x.pos.col)).Pairwise (· < ·) ∧
    (d.report.sites.map fun site => toLex (site.pos.line, site.pos.col)).Pairwise (· ≤ ·) := by
  have hrun : (desugar "x = [<1>][<y>] + ;" {}).map (fun d =>
      (d.diagnostics.map Diagnostic.pos, d.report.sites.map Site.pos)) =
      .ok ([⟨1, 11⟩, ⟨1, 14⟩, ⟨1, 18⟩], [⟨1, 5⟩, ⟨1, 5⟩]) := by
    decide +kernel
  obtain ⟨d, hd, hrun⟩ := map_eq_ok_iff.mp hrun
  obtain ⟨hdiagnostics, hsites⟩ := Prod.mk.inj hrun
  exact ⟨d, hd, hdiagnostics, hsites, desugar_in_source_order hd⟩

end ListSugar
