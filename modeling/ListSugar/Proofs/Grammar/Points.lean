/-
The points of a program stand in front of names.

A point is written only in front of the name of a member, so among the tokens of a tree or of
a statement each point is followed by a name.  The tokens of one part never end with a point,
so parts can be put one after the other.
-/
import Mathlib.Data.List.Chain
import ListSugar.Proofs.Grammar.Statements

namespace ListSugar

/-- The token may stand in front of the other one: a point stands in front of names only. -/
def Token.Precedes (t u : Token) : Prop := t = .symbol .dot → ∃ name, u = .ident name

/-- Every point among the tokens is followed by a name. -/
structure PointsNamed (ts : List Token) : Prop where
  chain : ts.IsChain Token.Precedes
  last : ts.getLast? ≠ some (.symbol .dot)

namespace PointsNamed

theorem nil : PointsNamed [] := ⟨.nil, by simp⟩

theorem append {us vs : List Token} (hus : PointsNamed us) (hvs : PointsNamed vs) :
    PointsNamed (us ++ vs) where
  chain := by
    refine hus.chain.append hvs.chain fun t ht _ _ hdot => ?_
    rw [hdot] at ht
    exact absurd ht hus.last
  last := by
    cases vs with
    | nil =>
      rw [List.append_nil]
      exact hus.last
    | cons v vs =>
      rw [List.getLast?_append_cons]
      exact hvs.last

theorem single {t : Token} (h : t ≠ .symbol .dot) : PointsNamed [t] :=
  ⟨.singleton t, by simpa using h⟩

theorem cons {t : Token} (h : t ≠ .symbol .dot) {ts : List Token} (hts : PointsNamed ts) :
    PointsNamed (t :: ts) :=
  (single h).append hts

/-- A point and the name behind it. -/
theorem member (name : String) : PointsNamed [.symbol .dot, .ident name] where
  chain := List.isChain_cons_cons.mpr ⟨fun _ => ⟨name, rfl⟩, .singleton _⟩
  last := by simp

theorem of_forall_ne : ∀ {ts : List Token}, (∀ t ∈ ts, t ≠ .symbol .dot) → PointsNamed ts := by
  intro ts
  induction ts with
  | nil => exact fun _ => nil
  | cons t ts ih => exact fun h => cons (h t (by simp)) (ih fun u hu => h u (by simp [hu]))

/-- Tokens around others. -/
theorem enclosed {a b : Token} (ha : a ≠ .symbol .dot) (hb : b ≠ .symbol .dot) {ts : List Token}
    (hts : PointsNamed ts) : PointsNamed (a :: (ts ++ [b])) :=
  cons ha (hts.append (single hb))

end PointsNamed

/-! ### Types and trees -/

theorem TypeExpr.pointsNamed_tokens (ty : TypeExpr) : PointsNamed ty.tokens := by
  refine .of_forall_ne fun t ht hdot => ?_
  have htype := ty.isTypeToken_of_mem_tokens t ht
  rw [hdot] at htype
  cases htype

theorem pointsNamed_declaredTokens (ty : Option TypeExpr) : PointsNamed (declaredTokens ty) := by
  cases ty with
  | none => exact .single (by simp)
  | some ty => exact ty.pointsNamed_tokens

namespace Expr

theorem SpellsRest.pointsNamed : ∀ {es : List Expr} {ts : List Token}, SpellsRest es ts →
    (∀ e ∈ es, ∀ {us}, e.Spells us → PointsNamed us) → PointsNamed ts := by
  intro es
  induction es with
  | nil =>
    rintro ts rfl _
    exact .nil
  | cons e rest ih =>
    rintro ts ⟨us, vs, hus, hvs, rfl⟩ h
    refine .cons (by simp) ?_
    exact (h e (by simp) hus).append (ih hvs fun c hc => h c (by simp [hc]))

theorem SpellsAll.pointsNamed {es : List Expr} {ts : List Token} (hts : SpellsAll es ts)
    (h : ∀ e ∈ es, ∀ {us}, e.Spells us → PointsNamed us) : PointsNamed ts := by
  cases es with
  | nil =>
    obtain rfl : ts = [] := hts
    exact .nil
  | cons e rest =>
    obtain ⟨us, vs, hus, hvs, rfl⟩ := hts
    exact (h e (by simp) hus).append (hvs.pointsNamed fun c hc => h c (by simp [hc]))

theorem SpellsArguments.pointsNamed {args : Option (List Expr)} {ts : List Token}
    (hts : SpellsArguments args ts)
    (h : ∀ e ∈ args.getD [], ∀ {us}, e.Spells us → PointsNamed us) : PointsNamed ts := by
  cases args with
  | none =>
    obtain rfl : ts = [] := hts
    exact .nil
  | some es =>
    obtain ⟨us, hus, rfl⟩ := hts
    exact .enclosed (by simp) (by simp) (hus.pointsNamed h)

theorem SpellsInitializer.pointsNamed {init : Option (List Expr)} {ts : List Token}
    (hts : SpellsInitializer init ts)
    (h : ∀ e ∈ init.getD [], ∀ {us}, e.Spells us → PointsNamed us) : PointsNamed ts := by
  cases init with
  | none =>
    obtain rfl : ts = [] := hts
    exact .nil
  | some es =>
    obtain ⟨us, hus, ⟨rfl, -⟩ | ⟨rfl, -⟩⟩ := hts
    · exact .enclosed (by simp) (by simp) (hus.pointsNamed h)
    · refine .cons (by simp) ((hus.pointsNamed h).append ?_)
      exact .cons (by simp) (.single (by simp))

/-- Every point among the tokens of a tree is followed by a name. -/
theorem Spells.pointsNamed {e : Expr} : ∀ {ts : List Token}, e.Spells ts → PointsNamed ts := by
  induction e using children_induction with
  | step e ih =>
    intro ts h
    cases e with
    | missing m =>
      obtain rfl : ts = [] := h
      exact .nil
    | literal m value =>
      obtain rfl : ts = [value.token] := h
      exact .single (by cases value <;> simp [Literal.token])
    | ident m name =>
      obtain rfl : ts = [.ident name] := h
      exact .single (by simp)
    | paren m inner =>
      obtain ⟨us, hus, rfl⟩ := h
      exact .enclosed (by simp) (by simp) (ih inner (by simp [children]) hus)
    | unary m op operand =>
      obtain ⟨us, hus, rfl⟩ := h
      exact .cons (by cases op <;> simp [UnaryOp.sign]) (ih operand (by simp [children]) hus)
    | binary m op left right =>
      obtain ⟨us, vs, hus, hvs, rfl⟩ := h
      have hleft := ih left (by simp [children]) hus
      have hright := ih right (by simp [children]) hvs
      exact hleft.append (.cons (by cases op <;> simp [BinaryOp.sign]) hright)
    | member m receiver name =>
      obtain ⟨us, hus, rfl⟩ := h
      exact (ih receiver (by simp [children]) hus).append (.member name)
    | call m callee args =>
      obtain ⟨us, vs, hus, hvs, rfl⟩ := h
      have hargs := hvs.pointsNamed fun c hc => ih c (by simp [children, hc])
      exact (ih callee (by simp [children]) hus).append (.enclosed (by simp) (by simp) hargs)
    | index m receiver args =>
      obtain ⟨us, vs, hus, hvs, rfl⟩ := h
      have hargs := hvs.pointsNamed fun c hc => ih c (by simp [children, hc])
      exact (ih receiver (by simp [children]) hus).append (.enclosed (by simp) (by simp) hargs)
    | new m ty args init =>
      obtain ⟨us, vs, hus, hvs, rfl⟩ := h
      have hargs := hus.pointsNamed fun c hc => ih c (by simp [children, hc])
      have hinit := hvs.pointsNamed fun c hc => ih c (by simp [children, hc])
      exact .cons (by simp) (ty.pointsNamed_tokens.append (hargs.append hinit))

end Expr

/-! ### Statements -/

namespace Stmt

theorem SpellsAll.pointsNamed : ∀ {stmts : List Stmt} {ts : List Token}, SpellsAll stmts ts →
    (∀ p ∈ stmts, ∀ {us}, p.Spells us → PointsNamed us) → PointsNamed ts := by
  intro stmts
  induction stmts with
  | nil =>
    rintro ts rfl _
    exact .nil
  | cons first rest ih =>
    rintro ts ⟨us, vs, hus, hvs, rfl⟩ h
    exact (h first (by simp) hus).append (ih hvs fun p hp => h p (by simp [hp]))

/-- Every point among the tokens of a statement is followed by a name. -/
theorem Spells.pointsNamed {st : Stmt} : ∀ {ts : List Token}, st.Spells ts → PointsNamed ts := by
  induction st using parts_induction with
  | step st ih =>
    intro ts h
    cases st with
    | declare ty name init line =>
      obtain ⟨us, hus, rfl⟩ := h
      have hinit : PointsNamed us := by
        cases init with
        | none =>
          obtain rfl : us = [] := hus
          exact .nil
        | some e =>
          obtain ⟨vs, hvs, rfl⟩ := hus
          exact .cons (by simp) hvs.pointsNamed
      exact (pointsNamed_declaredTokens ty).append (.enclosed (by simp) (by simp) hinit)
    | assign target value =>
      obtain ⟨us, vs, hus, hvs, rfl⟩ := h
      exact hus.pointsNamed.append (.enclosed (by simp) (by simp) hvs.pointsNamed)
    | expr value =>
      obtain ⟨us, hus, rfl⟩ := h
      exact hus.pointsNamed.append (.single (by simp))
    | block stmts =>
      obtain ⟨us, hus, rfl⟩ := h
      refine .enclosed (by simp) (by simp) (hus.pointsNamed fun p hp => ?_)
      exact ih p (by simpa [parts] using hp)
    | branch cond thenBranch elseBranch =>
      obtain ⟨us, vs, ws, hus, hvs, hws, rfl⟩ := h
      have hthen := ih thenBranch (by simp [parts]) hvs
      have helse : PointsNamed ws := by
        cases elseBranch with
        | none =>
          obtain rfl : ws = [] := hws
          exact .nil
        | some other =>
          obtain ⟨xs, hxs, rfl⟩ := hws
          exact .cons (by simp) (ih other (by simp [parts]) hxs)
      refine .cons (by simp) (.cons (by simp) (hus.pointsNamed.append ?_))
      exact .cons (by simp) (hthen.append helse)
    | foreach ty name iter body =>
      obtain ⟨us, vs, hus, hvs, rfl⟩ := h
      have hbody := ih body (by simp [parts]) hvs
      refine .cons (by simp) (.cons (by simp) ((pointsNamed_declaredTokens ty).append ?_))
      refine .cons (by simp) (.cons (by simp) (hus.pointsNamed.append ?_))
      exact .cons (by simp) hbody

end Stmt

end ListSugar
