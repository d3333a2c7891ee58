/-
Known types stay when a program is expanded.

A type refines another when it is the same, or the other is unknown.  Every rule gives a
refined type for refined parts: where it needs a known type, it gives an unknown one
without it.  A list literal has an unknown type as it is read, so its construction can
only refine it; and what is refined in an initializer is refined wherever the variable is
in sight.  So the expanded program is typed in scopes that refine those of the program,
declaration by declaration, and each node that is kept has a refined type.
-/
import ListSugar.Proofs.Pass.Rewrites
import ListSugar.Proofs.Typing.Rows

namespace ListSugar

/-- The type `b` is `a`, unless `a` is unknown. -/
def Ty.RefinedBy (a b : Ty) : Prop := a = .unknown ∨ a = b

namespace Ty.RefinedBy

theorem refl (a : Ty) : a.RefinedBy a := Or.inr rfl

theorem unknown (a : Ty) : Ty.unknown.RefinedBy a := Or.inl rfl

/-- A known type is refined by itself only. -/
theorem eq {a b : Ty} (h : a.RefinedBy b) (hknown : a ≠ .unknown) : b = a := by
  rcases h with h | h
  · exact absurd h hknown
  · exact h.symm

/-- A function that gives nothing for an unknown type keeps refinement. -/
theorem apply {f : Ty → Ty} (hf : f .unknown = .unknown) {a b : Ty} (h : a.RefinedBy b) :
    (f a).RefinedBy (f b) := by
  rcases h with rfl | rfl
  · exact Or.inl hf
  · exact refl _

end Ty.RefinedBy

/-! ### Every rule

No rule gives a known type where it needs a type that is unknown.  So a type that becomes
known can only make results known, and a result that was known already stays the same.
-/

namespace Typing

open Ty

theorem refined_element {a b : Ty} (h : a.RefinedBy b) : a.element.RefinedBy b.element :=
  h.apply rfl

theorem refined_unary (op : UnaryOp) {a b : Ty} (h : a.RefinedBy b) :
    (unary op a).RefinedBy (unary op b) := by
  refine h.apply ?_
  cases op <;> rfl

theorem refined_member (name : String) {a b : Ty} (h : a.RefinedBy b) :
    (member a name).RefinedBy (member b name) :=
  RefinedBy.apply (f := fun ty => member ty name) rfl h

theorem arithmetic_unknown_right (left : Ty) : arithmetic left .unknown = .unknown := by
  unfold arithmetic
  rw [show Ty.isNumeric .unknown = false from rfl, Bool.and_false]
  rfl

/-- Arithmetic gives nothing unless both types are known. -/
theorem refined_arithmetic {a b c d : Ty} (hleft : a.RefinedBy b) (hright : c.RefinedBy d) :
    (arithmetic a c).RefinedBy (arithmetic b d) := by
  rcases hleft with rfl | rfl
  · exact .unknown _
  · exact RefinedBy.apply (f := arithmetic a) (arithmetic_unknown_right a) hright

/-- A test of both types gives nothing unless both are known. -/
theorem refined_test {p : Ty → Bool} (hp : p .unknown = false) {a b c d : Ty}
    (hleft : a.RefinedBy b) (hright : c.RefinedBy d) :
    (if p a && p c then Ty.bool else .unknown).RefinedBy
      (if p b && p d then .bool else .unknown) := by
  rcases hleft with rfl | rfl
  · rw [hp, Bool.false_and]
    exact .unknown _
  rcases hright with rfl | rfl
  · rw [hp, Bool.and_false]
    exact .unknown _
  · exact .refl _

/-- **An operator between refined types gives a refined type.** -/
theorem refined_binary (op : BinaryOp) {a b c d : Ty} (hleft : a.RefinedBy b)
    (hright : c.RefinedBy d) : (binary op a c).RefinedBy (binary op b d) := by
  have harith := refined_arithmetic hleft hright
  cases op with
  | add =>
    show (if a.isStr || c.isStr then Ty.str else arithmetic a c).RefinedBy
      (if b.isStr || d.isStr then .str else arithmetic b d)
    by_cases hstr : (a.isStr || c.isStr) = true
    · -- One known string makes the sum a string, whatever the other operand is.
      have hstr' : (b.isStr || d.isStr) = true := by
        rcases hleft with rfl | rfl <;> rcases hright with rfl | rfl <;> simp_all [Ty.isStr]
      rw [if_pos hstr, if_pos hstr']
      exact .refl _
    · rw [if_neg hstr]
      by_cases hstr' : (b.isStr || d.isStr) = true
      · rw [if_pos hstr']
        have hunknown : arithmetic a c = .unknown := by
          rcases hleft with rfl | rfl
          · rfl
          · rcases hright with rfl | rfl
            · exact arithmetic_unknown_right a
            · exact absurd hstr' hstr
        rw [hunknown]
        exact .unknown _
      · rw [if_neg hstr']
        exact harith
  | sub => exact harith
  | mul => exact harith
  | div => exact harith
  | rem => exact harith
  | eq => exact .refl _
  | neq => exact .refl _
  | lt => exact refined_test rfl hleft hright
  | gt => exact refined_test rfl hleft hright
  | lte => exact refined_test rfl hleft hright
  | gte => exact refined_test rfl hleft hright
  | and => exact refined_test rfl hleft hright
  | or => exact refined_test rfl hleft hright

/-- Only a single argument counts for an element access, and only if it is an integer. -/
theorem index_eq_unknown {receiver : Ty} {args : List Ty} (h : args ≠ [.int]) :
    index receiver args = .unknown := by
  unfold index
  split
  · exact absurd rfl h
  · rfl

end Typing

/-! ### Scopes

Expanding a literal adds and removes no declaration.  The frames of the two walks
therefore declare the same names in the same order, and a name is looked up at the same
place in both.
-/

/-- The frames declare the same names, with refined types. -/
def Frame.RefinedBy : Frame → Frame → Prop
  | [], g => g = []
  | (name, ty) :: f, g => ∃ ty' g', ty.RefinedBy ty' ∧ Frame.RefinedBy f g' ∧ g = (name, ty') :: g'

/-- The frames are refined one by one. -/
def Frame.RefinedByAll : List Frame → List Frame → Prop
  | [], gs => gs = []
  | f :: fs, gs => ∃ g gs', f.RefinedBy g ∧ Frame.RefinedByAll fs gs' ∧ gs = g :: gs'

/-- The scopes are refined frame by frame. -/
def Scope.RefinedBy (s t : Scope) : Prop := Frame.RefinedByAll s.frames t.frames

theorem Frame.RefinedBy.lookup {f : Frame} : ∀ {g : Frame}, f.RefinedBy g → ∀ name,
    (f.lookup name = none ∧ g.lookup name = none) ∨
      ∃ ty ty', f.lookup name = some ty ∧ g.lookup name = some ty' ∧ ty.RefinedBy ty' := by
  induction f with
  | nil =>
    intro g h name
    obtain rfl : g = [] := h
    exact Or.inl ⟨rfl, rfl⟩
  | cons declared f ih =>
    obtain ⟨declared, ty⟩ := declared
    intro g h name
    obtain ⟨ty', g', hty, hrest, rfl⟩ := h
    rw [List.lookup_cons, List.lookup_cons]
    by_cases hname : name = declared
    · subst hname
      exact Or.inr ⟨ty, ty', by simp, by simp, hty⟩
    · have hne : (name == declared) = false := by simpa using hname
      rw [hne]
      exact ih hrest name

namespace Scope

theorem refined_lookup_frames {fs : List Frame} : ∀ {gs : List Frame},
    Frame.RefinedByAll fs gs → ∀ name,
    Ty.RefinedBy ((fs.findSome? (List.lookup name)).getD .unknown)
      ((gs.findSome? (List.lookup name)).getD .unknown) := by
  induction fs with
  | nil =>
    intro gs h name
    exact .unknown _
  | cons f fs ih =>
    intro gs h name
    obtain ⟨g, gs', hf, hrest, rfl⟩ := h
    rw [List.findSome?_cons, List.findSome?_cons]
    rcases hf.lookup name with ⟨hnone, hnone'⟩ | ⟨ty, ty', hsome, hsome', hty⟩
    · rw [hnone, hnone']
      exact ih hrest name
    · rw [hsome, hsome']
      exact hty

theorem RefinedBy.lookup {s t : Scope} (h : s.RefinedBy t) (name : String) :
    (s.lookup name).RefinedBy (t.lookup name) :=
  refined_lookup_frames h name

theorem RefinedBy.enter {s t : Scope} (h : s.RefinedBy t) : s.enter.RefinedBy t.enter :=
  ⟨[], t.frames, rfl, h, rfl⟩

theorem RefinedBy.declare {s t : Scope} (h : s.RefinedBy t) (name : String) {a b : Ty}
    (hty : a.RefinedBy b) : (s.declare name a).RefinedBy (t.declare name b) := by
  obtain ⟨g, gs, hinner, houter, heq⟩ := h
  obtain ⟨rfl, rfl⟩ : t.inner = g ∧ t.outer = gs := by simpa [frames] using heq
  exact ⟨_, t.outer, ⟨b, t.inner, hty, hinner, rfl⟩, houter, rfl⟩

theorem refined_empty : Scope.empty.RefinedBy .empty := ⟨[], [], rfl, rfl, rfl⟩

end Scope

/-! ### Every expression

The induction follows the rewriting.  At a literal that is replaced there is nothing to
show, since its type was unknown.  At an element access that is kept, its type could be
known only with a single integer as the argument, and then no literal was there to be
replaced.
-/

namespace Typing

open Desugar

variable {s : Setting} {k : Nat}

/-- A list literal has an unknown type as it is read. -/
theorem index_of_delimitedArgs? {args : List Expr} {shape : Delimited}
    (h : Expr.delimitedArgs? args = some shape) (scope : Scope) (receiver : Ty) :
    index receiver (inferAll scope args).result = .unknown := by
  refine index_eq_unknown ?_
  rw [inferAll_result]
  rcases Expr.ends_cases args with rfl | ⟨only, rfl⟩ | ⟨first, middles, last, rfl⟩
  · cases h
  · obtain ⟨outer, inner, harg, -⟩ := Expr.single?_eq_some_iff.mp h
    have hty : (infer scope only).result ≠ .int := by
      rw [harg]
      simp only [infer, conclude, binary]
      split
      · simp
      · split <;> simp
    simpa using hty
  · simp

theorem infer_index_of_literal {m : Mark} {receiver : Expr} {args : List Expr} {shape : Delimited}
    (h : Expr.delimitedArgs? args = some shape) (scope : Scope) :
    (infer scope (.index m receiver args)).result = .unknown :=
  index_of_delimitedArgs? h scope _

/-- A node that is replaced has an unknown type. -/
theorem infer_of_replaces {e e' : Expr} (h : s.Replaces k e e') (scope : Scope) :
    (infer scope e).result = .unknown := by
  obtain ⟨site, elements, id, hj, -⟩ := h
  obtain ⟨m, receiver, args, shape, rfl, hshape, -⟩ := Setting.judge_eq_expand hj
  exact infer_index_of_literal hshape scope

/-- The type of a call depends on the names in it only. -/
theorem call_rewrites {callee callee' : Expr} {args args' : List Expr}
    (hcallee : s.Rewrites k callee callee') (hargs : s.RewritesAll k args args') :
    call callee' args' = call callee args := by
  have hempty : args'.isEmpty = args.isEmpty := by
    cases args with
    | nil => rw [show args' = [] from hargs]
    | cons e rest =>
      obtain ⟨e', rest', -, -, rfl⟩ := hargs
      rfl
  cases callee with
  | missing m => rw [show callee' = .missing m from hcallee]; rfl
  | literal m value => rw [show callee' = .literal m value from hcallee]; rfl
  | ident m name => rw [show callee' = .ident m name from hcallee]; rfl
  | paren m inner =>
    obtain ⟨inner', -, rfl⟩ := hcallee
    rfl
  | unary m op operand =>
    obtain ⟨operand', -, rfl⟩ := hcallee
    rfl
  | binary m op left right =>
    obtain ⟨left', right', -, -, rfl⟩ := hcallee
    rfl
  | member m receiver name =>
    obtain ⟨receiver', -, rfl⟩ := hcallee
    simp only [call, hempty]
  | call m inner rest =>
    obtain ⟨inner', rest', -, -, rfl⟩ := hcallee
    rfl
  | index m receiver rest =>
    rcases hcallee with hcallee | ⟨receiver', rest', -, -, rfl⟩
    · obtain ⟨m', ty, args'', init, rfl, -⟩ := hcallee.exists_new
      rfl
    · rfl
  | new m ty arguments init =>
    obtain ⟨arguments', init', -, -, rfl⟩ := hcallee
    rfl

/-- Element accesses are refined with their receivers and arguments. -/
theorem refined_index {a b : Ty} (hreceiver : a.RefinedBy b) {args args' : List Expr}
    (hargs : s.RewritesAll k args args') {scope scope' : Scope}
    (harg : ∀ c ∈ args, ∀ c', s.Rewrites k c c' →
      (infer scope c).result.RefinedBy (infer scope' c').result) :
    (index a (inferAll scope args).result).RefinedBy (index b (inferAll scope' args').result) := by
  rw [inferAll_result, inferAll_result]
  by_cases hint : (args.map fun e => (infer scope e).result) = [.int]
  · obtain ⟨only, rfl, hty⟩ := List.map_eq_singleton_iff.mp hint
    obtain ⟨only', rest', honly, hrest, rfl⟩ := hargs
    obtain rfl : rest' = [] := hrest
    have hty' : (infer scope' only').result = .int := by
      have := (harg only (by simp) only' honly).eq (by rw [hty]; simp)
      rw [this, hty]
    simp only [List.map_singleton, hty, hty']
    exact refined_element hreceiver
  · rw [index_eq_unknown hint]
    exact .unknown _

/-- **In a refined scope the type of a rewritten expression is refined.** -/
theorem refined_infer (e : Expr) : ∀ {e' : Expr}, s.Rewrites k e e' →
    ∀ {scope scope' : Scope}, scope.RefinedBy scope' →
      (infer scope e).result.RefinedBy (infer scope' e').result := by
  induction e using Expr.children_induction with
  | step e ih =>
    intro e' h scope scope' hscope
    cases e with
    | missing m =>
      obtain rfl : e' = .missing m := h
      exact .refl _
    | literal m value =>
      obtain rfl : e' = .literal m value := h
      exact .refl _
    | ident m name =>
      obtain rfl : e' = .ident m name := h
      exact hscope.lookup name
    | paren m inner =>
      obtain ⟨inner', hinner, rfl⟩ := h
      exact ih inner (by simp [Expr.children]) hinner hscope
    | unary m op operand =>
      obtain ⟨operand', hoperand, rfl⟩ := h
      exact refined_unary op (ih operand (by simp [Expr.children]) hoperand hscope)
    | binary m op left right =>
      obtain ⟨left', right', hleft, hright, rfl⟩ := h
      simp only [infer, conclude, hleft.isMissing_eq, hright.isMissing_eq]
      by_cases hmissing : (left.isMissing || right.isMissing) = true
      · rw [if_pos hmissing]
        exact .unknown _
      · rw [if_neg hmissing, if_neg hmissing]
        exact refined_binary op (ih left (by simp [Expr.children]) hleft hscope)
          (ih right (by simp [Expr.children]) hright hscope)
    | member m receiver name =>
      obtain ⟨receiver', hreceiver, rfl⟩ := h
      exact refined_member name (ih receiver (by simp [Expr.children]) hreceiver hscope)
    | call m callee args =>
      obtain ⟨callee', args', hcallee, hargs, rfl⟩ := h
      simp only [infer, conclude]
      rw [call_rewrites hcallee hargs]
      exact .refl _
    | index m receiver args =>
      rcases h with h | ⟨receiver', args', hreceiver, hargs, rfl⟩
      · rw [infer_of_replaces h scope]
        exact .unknown _
      · refine refined_index (ih receiver (by simp [Expr.children]) hreceiver hscope) hargs ?_
        intro c hc c' hR
        exact ih c (by simp [Expr.children, hc]) hR hscope
    | new m ty args init =>
      obtain ⟨args', init', -, -, rfl⟩ := h
      exact .refl _

/-! ### Every statement

Each expression of the rewritten program stands in a scope that was built by the same
declarations.  The scopes are compared statement by statement, and the expressions are
then taken out of their scopes.
-/

open Stmt

theorem refined_walk {st st' : Stmt} (h : Related (s.Rewrites k) st st') {scope scope' : Scope}
    (hscope : scope.RefinedBy scope') :
    (walk scope st).result.RefinedBy (walk scope' st').result := by
  rw [walk_result, walk_result]
  cases st with
  | declare ty name init line =>
    obtain ⟨init', hinit, rfl⟩ := h
    refine hscope.declare name ?_
    cases ty with
    | some ty => exact .refl _
    | none =>
      cases init with
      | none => exact .unknown _
      | some e =>
        obtain ⟨e', he, rfl⟩ := hinit
        exact refined_infer e he hscope
  | assign target value =>
    obtain ⟨target', value', -, -, rfl⟩ := h
    exact hscope
  | expr value =>
    obtain ⟨value', -, rfl⟩ := h
    exact hscope
  | block stmts =>
    obtain ⟨stmts', -, rfl⟩ := h
    exact hscope
  | branch cond thenBranch elseBranch =>
    obtain ⟨cond', thenBranch', elseBranch', -, -, -, rfl⟩ := h
    exact hscope
  | foreach ty name iter body =>
    obtain ⟨iter', body', -, -, rfl⟩ := h
    exact hscope

/-- The expression in its scope is a rewritten one in a refined scope. -/
def RefinedRoot (s : Setting) (k : Nat) (roots : List (Scope × Expr)) (r' : Scope × Expr) :
    Prop :=
  ∃ r ∈ roots, r.1.RefinedBy r'.1 ∧ s.Rewrites k r.2 r'.2

theorem RefinedRoot.mono {roots roots' : List (Scope × Expr)} {r' : Scope × Expr}
    (h : RefinedRoot s k roots r') (hsub : roots ⊆ roots') : RefinedRoot s k roots' r' := by
  obtain ⟨r, hr, hrest⟩ := h
  exact ⟨r, hsub hr, hrest⟩

theorem refined_scopedRootsOfAll : ∀ {stmts stmts' : List Stmt},
    RelatedAll (s.Rewrites k) stmts stmts' →
    (∀ p ∈ stmts, ∀ {p'}, Related (s.Rewrites k) p p' → ∀ {scope scope' : Scope},
      scope.RefinedBy scope' → ∀ r' ∈ p'.scopedRoots scope',
        RefinedRoot s k (p.scopedRoots scope) r') →
    ∀ {scope scope' : Scope}, scope.RefinedBy scope' →
      ∀ r' ∈ scopedRootsOfAll scope' stmts', RefinedRoot s k (scopedRootsOfAll scope stmts) r' := by
  intro stmts
  induction stmts with
  | nil =>
    intro stmts' h _ scope scope' _ r' hr'
    obtain rfl : stmts' = [] := h
    cases hr'
  | cons first rest ih =>
    intro stmts' h hpart scope scope' hscope r' hr'
    obtain ⟨first', rest', hfirst, hrest, rfl⟩ := h
    rcases List.mem_append.mp hr' with hr' | hr'
    · exact (hpart first (by simp) hfirst hscope r' hr').mono (List.subset_append_left _ _)
    · have hnext := refined_walk hfirst hscope
      exact (ih hrest (fun p hp => hpart p (by simp [hp])) hnext r' hr').mono
        (List.subset_append_right _ _)

/-- **Every expression of a rewritten statement stands in a refined scope.** -/
theorem refined_scopedRoots (st : Stmt) : ∀ {st' : Stmt}, Related (s.Rewrites k) st st' →
    ∀ {scope scope' : Scope}, scope.RefinedBy scope' →
      ∀ r' ∈ st'.scopedRoots scope', RefinedRoot s k (st.scopedRoots scope) r' := by
  induction st using Stmt.parts_induction with
  | step st ih =>
    intro st' h scope scope' hscope r' hr'
    cases st with
    | declare ty name init line =>
      obtain ⟨init', hinit, rfl⟩ := h
      obtain ⟨e', he', rfl⟩ := List.mem_map.mp hr'
      obtain rfl : init' = some e' := by simpa using he'
      cases init with
      | none => cases hinit
      | some e =>
        obtain ⟨e'', hR, heq⟩ := hinit
        cases heq
        exact ⟨(scope, e), by simp [scopedRoots], hscope, hR⟩
    | assign target value =>
      obtain ⟨target', value', htarget, hvalue, rfl⟩ := h
      rcases (by simpa [scopedRoots] using hr' : r' = (scope', target') ∨ r' = (scope', value'))
        with rfl | rfl
      · exact ⟨(scope, target), by simp [scopedRoots], hscope, htarget⟩
      · exact ⟨(scope, value), by simp [scopedRoots], hscope, hvalue⟩
    | expr value =>
      obtain ⟨value', hvalue, rfl⟩ := h
      obtain rfl : r' = (scope', value') := by simpa [scopedRoots] using hr'
      exact ⟨(scope, value), by simp [scopedRoots], hscope, hvalue⟩
    | block stmts =>
      obtain ⟨stmts', hall, rfl⟩ := h
      exact refined_scopedRootsOfAll hall (fun p hp => ih p (by simpa [parts] using hp))
        hscope.enter r' hr'
    | branch cond thenBranch elseBranch =>
      obtain ⟨cond', thenBranch', elseBranch', hcond, hthen, helse, rfl⟩ := h
      rcases List.mem_cons.mp hr' with rfl | hr'
      · exact ⟨(scope, cond), by simp [scopedRoots], hscope, hcond⟩
      rcases List.mem_append.mp hr' with hr' | hr'
      · refine (ih thenBranch (by simp [parts]) hthen hscope.enter r' hr').mono fun r hr => ?_
        simp [scopedRoots, hr]
      · cases elseBranch with
        | none =>
          obtain rfl : elseBranch' = none := helse
          cases hr'
        | some other =>
          obtain ⟨other', hother, rfl⟩ := helse
          refine (ih other (by simp [parts]) hother hscope.enter r' hr').mono fun r hr => ?_
          simp [scopedRoots, scopedRootsOfElse, hr]
    | foreach ty name iter body =>
      obtain ⟨iter', body', hiter, hbody, rfl⟩ := h
      rcases List.mem_cons.mp hr' with rfl | hr'
      · exact ⟨(scope, iter), by simp [scopedRoots], hscope, hiter⟩
      have hdeclared : (declaredTy ty (infer scope iter).result.element).RefinedBy
          (declaredTy ty (infer scope' iter').result.element) := by
        cases ty with
        | some ty => exact .refl _
        | none => exact refined_element (refined_infer iter hiter hscope)
      refine (ih body (by simp [parts]) hbody (hscope.enter.declare name hdeclared) r' hr').mono
        fun r hr => ?_
      simp [scopedRoots, hr]

end Typing

end ListSugar
