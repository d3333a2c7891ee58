/-
What a bracketed list literal is read as.

Between `[<` and `>]` the first element stands behind a sign that takes it for a right
operand, and the last one in front of a sign that takes it for a left one.  If an element
is held together by an operator that binds no more tightly than a comparison, the sign
goes to the outer operand of that element and not to the whole: `opened` and `closed` say
where it goes.  They keep a tree readable, so a bracketed literal is read as the access
with these arguments, and from there its elements can be computed.

A single element is recognised only whole.  Among several, the last one is taken whole or
not at all, but the first one is also recognised when it is a comparison by `<` itself.
The access then begins with a comparison whose right operand is only that of the element,
and the rest of the element is lost: `[<a < b, c>]` gives `b` and `c`.
-/
import ListSugar.Proofs.Grammar.Reading
import ListSugar.Proofs.Grammar.Spelled
import ListSugar.Proofs.Shapes

namespace ListSugar

namespace Expr

/-! ### The sign in front of the first element

The sign goes down the left side of the element, past every operator that binds no more
tightly than it does.  Along that way the tree keeps how tightly it binds and where it
ends, so each fact is an induction on the left spine.
-/

/-- What is read when a sign `<` stands in front of the tree. -/
def opened : Expr → Expr
  | .binary m op left right =>
    if op.rank ≤ 3 then .binary m op left.opened right
    else .binary .blank .lt (.missing .blank) (.binary m op left right)
  | e => .binary .blank .lt (.missing .blank) e

/-- The sign takes a tree whole that binds more tightly than a comparison. -/
theorem opened_of_rank {e : Expr} (h : 4 ≤ e.rank) :
    e.opened = .binary .blank .lt (.missing .blank) e := by
  cases e with
  | binary m op left right =>
    have hrank : 4 ≤ op.rank := h
    rw [opened, if_neg (by omega)]
  | _ => rfl

/-- Any other tree gives its left operand to the sign. -/
theorem opened_of_not_rank {e : Expr} (h : ¬ 4 ≤ e.rank) : ∃ m op left right,
    e = .binary m op left right ∧ op.rank ≤ 3 ∧ e.opened = .binary m op left.opened right := by
  cases e with
  | binary m op left right =>
    have hrank : ¬ 4 ≤ op.rank := h
    exact ⟨m, op, left, right, rfl, by omega, by rw [opened, if_pos (by omega)]⟩
  | unary m op operand => exact absurd (by decide : 4 ≤ 6) h
  | _ => exact absurd (by decide : 4 ≤ 7) h

theorem rank_opened (e : Expr) : e.opened.rank = min 3 e.rank := by
  by_cases hrank : 4 ≤ e.rank
  · rw [opened_of_rank hrank]
    show 3 = min 3 e.rank
    omega
  · obtain ⟨m, op, left, right, rfl, hop, heq⟩ := opened_of_not_rank hrank
    rw [heq]
    show op.rank = min 3 op.rank
    omega

theorem endsMissing_opened (e : Expr) : e.opened.endsMissing = e.endsMissing := by
  by_cases hrank : 4 ≤ e.rank
  · rw [opened_of_rank hrank, endsMissing]
  · obtain ⟨m, op, left, right, rfl, hop, heq⟩ := opened_of_not_rank hrank
    rw [heq, endsMissing, endsMissing]

theorem wellFormed_missing (m : Mark) : (missing m).WellFormed := by
  intro n hn
  obtain rfl : n = .missing m := by simpa [nodes] using hn
  exact trivial

theorem wellFormed_binary {m : Mark} {op : BinaryOp} {left right : Expr}
    (hformed : (binary m op left right).Formed) (hleft : left.WellFormed)
    (hright : right.WellFormed) : (binary m op left right).WellFormed := by
  refine wellFormed_iff.mpr ⟨hformed, fun c hc => ?_⟩
  rcases (by simpa [children] using hc : c = left ∨ c = right) with rfl | rfl
  · exact hleft
  · exact hright

theorem WellFormed.opened {e : Expr} : e.WellFormed → e.opened.WellFormed := by
  induction e using children_induction with
  | step e ih =>
    intro h
    by_cases hrank : 4 ≤ e.rank
    · rw [opened_of_rank hrank]
      refine wellFormed_binary ⟨by decide, ?_, fun _ => rfl⟩ (wellFormed_missing _) h
      show 3 < e.rank
      omega
    · obtain ⟨m, op, left, right, rfl, hop, heq⟩ := opened_of_not_rank hrank
      have hformed := h.formed
      rw [heq]
      refine wellFormed_binary ⟨?_, hformed.2.1, ?_⟩
        (ih left (by simp [children]) (h.child (by simp [children])))
        (h.child (by simp [children]))
      · rw [rank_opened]
        have := hformed.1
        omega
      · rw [endsMissing_opened]
        exact hformed.2.2

theorem Spells.opened {e : Expr} : ∀ {ts : List Token}, e.Spells ts →
    e.opened.Spells (.symbol .lt :: ts) := by
  induction e using children_induction with
  | step e ih =>
    intro ts h
    by_cases hrank : 4 ≤ e.rank
    · rw [opened_of_rank hrank]
      exact ⟨[], ts, rfl, h, rfl⟩
    · obtain ⟨m, op, left, right, rfl, hop, heq⟩ := opened_of_not_rank hrank
      obtain ⟨us, vs, hus, hvs, rfl⟩ := h
      rw [heq]
      exact ⟨_, vs, ih left (by simp [children]) hus, hvs, rfl⟩

theorem resolved_binary {m : Mark} {op : BinaryOp} {left right : Expr} (hleft : left.Resolved)
    (hright : right.Resolved) : (binary m op left right).Resolved := by
  refine resolved_iff.mpr ⟨trivial, fun c hc => ?_⟩
  rcases (by simpa [children] using hc : c = left ∨ c = right) with rfl | rfl
  · exact hleft
  · exact hright

theorem resolved_missing (m : Mark) : (missing m).Resolved := by
  intro n hn
  obtain rfl : n = .missing m := by simpa [nodes] using hn
  exact trivial

theorem Resolved.opened {e : Expr} : e.Resolved → e.opened.Resolved := by
  induction e using children_induction with
  | step e ih =>
    intro h
    by_cases hrank : 4 ≤ e.rank
    · rw [opened_of_rank hrank]
      exact resolved_binary (resolved_missing _) h
    · obtain ⟨m, op, left, right, rfl, hop, heq⟩ := opened_of_not_rank hrank
      have hparts := (resolved_iff.mp h).2
      rw [heq]
      exact resolved_binary (ih left (by simp [children]) (hparts left (by simp [children])))
        (hparts right (by simp [children]))

/-- The trees that are read as a comparison by `<`: those that the sign takes whole, and
those that are such a comparison themselves. -/
theorem opened_eq_lt {e : Expr} {m : Mark} {left right : Expr}
    (h : e.opened = .binary m .lt left right) :
    (4 ≤ e.rank ∧ left.isMissing = true ∧ right = e) ∨
      ∃ inner, e = .binary m .lt inner right ∧ left = inner.opened := by
  by_cases hrank : 4 ≤ e.rank
  · rw [opened_of_rank hrank] at h
    cases h
    exact Or.inl ⟨hrank, rfl, rfl⟩
  · obtain ⟨m', op, inner, right', rfl, -, heq⟩ := opened_of_not_rank hrank
    rw [heq] at h
    cases h
    exact Or.inr ⟨inner, rfl, rfl⟩

theorem isMissing_opened (e : Expr) : e.opened.isMissing = false := by
  by_cases hrank : 4 ≤ e.rank
  · rw [opened_of_rank hrank]
    rfl
  · obtain ⟨m, op, left, right, -, -, heq⟩ := opened_of_not_rank hrank
    rw [heq]
    rfl

/-! ### The sign behind the last element

The way goes down the right side here, and equal rank ends it, since operators of one rank
are grouped to the left.
-/

/-- What is read when a sign `>` stands behind the tree. -/
def closed : Expr → Expr
  | .binary m op left right =>
    if op.rank < 3 then .binary m op left right.closed
    else .binary .blank .gt (.binary m op left right) (.missing .blank)
  | e => .binary .blank .gt e (.missing .blank)

/-- The sign takes a tree whole that binds at least as tightly as a comparison. -/
theorem closed_of_rank {e : Expr} (h : 3 ≤ e.rank) :
    e.closed = .binary .blank .gt e (.missing .blank) := by
  cases e with
  | binary m op left right =>
    have hrank : 3 ≤ op.rank := h
    rw [closed, if_neg (by omega)]
  | _ => rfl

/-- Any other tree gives its right operand to the sign. -/
theorem closed_of_not_rank {e : Expr} (h : ¬ 3 ≤ e.rank) : ∃ m op left right,
    e = .binary m op left right ∧ op.rank < 3 ∧ e.closed = .binary m op left right.closed := by
  cases e with
  | binary m op left right =>
    have hrank : ¬ 3 ≤ op.rank := h
    exact ⟨m, op, left, right, rfl, by omega, by rw [closed, if_pos (by omega)]⟩
  | unary m op operand => exact absurd (by decide : 3 ≤ 6) h
  | _ => exact absurd (by decide : 3 ≤ 7) h

theorem rank_closed (e : Expr) : e.closed.rank = min 3 e.rank := by
  by_cases hrank : 3 ≤ e.rank
  · rw [closed_of_rank hrank]
    show 3 = min 3 e.rank
    omega
  · obtain ⟨m, op, left, right, rfl, hop, heq⟩ := closed_of_not_rank hrank
    rw [heq]
    show op.rank = min 3 op.rank
    omega

theorem WellFormed.closed {e : Expr} : e.WellFormed → e.closed.WellFormed := by
  induction e using children_induction with
  | step e ih =>
    intro h
    by_cases hrank : 3 ≤ e.rank
    · rw [closed_of_rank hrank]
      exact wellFormed_binary ⟨hrank, by decide, fun _ => rfl⟩ h (wellFormed_missing _)
    · obtain ⟨m, op, left, right, rfl, hop, heq⟩ := closed_of_not_rank hrank
      have hformed := h.formed
      rw [heq]
      refine wellFormed_binary ⟨hformed.1, ?_, hformed.2.2⟩ (h.child (by simp [children]))
        (ih right (by simp [children]) (h.child (by simp [children])))
      rw [rank_closed]
      have := hformed.2.1
      omega

theorem Spells.closed {e : Expr} : ∀ {ts : List Token}, e.Spells ts →
    e.closed.Spells (ts ++ [.symbol .gt]) := by
  induction e using children_induction with
  | step e ih =>
    intro ts h
    by_cases hrank : 3 ≤ e.rank
    · rw [closed_of_rank hrank]
      exact ⟨ts, [], h, rfl, rfl⟩
    · obtain ⟨m, op, left, right, rfl, hop, heq⟩ := closed_of_not_rank hrank
      obtain ⟨us, vs, hus, hvs, rfl⟩ := h
      rw [heq]
      refine ⟨us, _, hus, ih right (by simp [children]) hvs, ?_⟩
      simp

theorem Resolved.closed {e : Expr} : e.Resolved → e.closed.Resolved := by
  induction e using children_induction with
  | step e ih =>
    intro h
    by_cases hrank : 3 ≤ e.rank
    · rw [closed_of_rank hrank]
      exact resolved_binary h (resolved_missing _)
    · obtain ⟨m, op, left, right, rfl, hop, heq⟩ := closed_of_not_rank hrank
      have hparts := (resolved_iff.mp h).2
      rw [heq]
      exact resolved_binary (hparts left (by simp [children]))
        (ih right (by simp [children]) (hparts right (by simp [children])))

/-- A tree that is read as a comparison by `>` is taken whole. -/
theorem closed_eq_gt {e : Expr} {m : Mark} {left right : Expr}
    (h : e.closed = .binary m .gt left right) :
    3 ≤ e.rank ∧ left = e ∧ right.isMissing = true := by
  by_cases hrank : 3 ≤ e.rank
  · rw [closed_of_rank hrank] at h
    cases h
    exact ⟨hrank, rfl, rfl⟩
  · obtain ⟨m', op, left', right', rfl, hop, heq⟩ := closed_of_not_rank hrank
    rw [heq] at h
    cases h
    exact absurd hop (by decide)

theorem isMissing_closed (e : Expr) : e.closed.isMissing = false := by
  by_cases hrank : 3 ≤ e.rank
  · rw [closed_of_rank hrank]
    rfl
  · obtain ⟨m, op, left, right, -, -, heq⟩ := closed_of_not_rank hrank
    rw [heq]
    rfl

/-! ### Bracketed literals -/

/-- The arguments that the elements of a bracketed literal are read as. -/
def bracketedArgs : List Expr → List Expr
  | [] => [(missing .blank).opened.closed]
  | [e] => [e.opened.closed]
  | first :: rest => first.opened :: (rest.dropLast ++ (rest.getLast?.map Expr.closed).toList)

/-- What a bracketed literal with the given elements is read as. -/
def bracketed (elements : List Expr) : Expr :=
  .index .blank (.missing .blank) (bracketedArgs elements)

theorem bracketedArgs_range (first : Expr) (middles : List Expr) (last : Expr) :
    bracketedArgs (first :: (middles ++ [last])) = first.opened :: (middles ++ [last.closed]) := by
  cases middles with
  | nil => rfl
  | cons second rest =>
    show first.opened :: ((second :: rest ++ [last]).dropLast ++
      ((second :: rest ++ [last]).getLast?.map Expr.closed).toList) = _
    rw [List.dropLast_concat, List.getLast?_concat]
    rfl

/-- A property that the signs keep passes from the elements to the arguments. -/
theorem forall_bracketedArgs {P : Expr → Prop} (hopened : ∀ {e}, P e → P e.opened)
    (hclosed : ∀ {e}, P e → P e.closed) (hmissing : P (.missing .blank)) {elements : List Expr}
    (h : ∀ e ∈ elements, P e) : ∀ a ∈ bracketedArgs elements, P a := by
  intro a ha
  rcases ends_cases elements with rfl | ⟨only, rfl⟩ | ⟨first, middles, last, rfl⟩
  · obtain rfl : a = (missing .blank).opened.closed := by simpa [bracketedArgs] using ha
    exact hclosed (hopened hmissing)
  · obtain rfl : a = only.opened.closed := by simpa [bracketedArgs] using ha
    exact hclosed (hopened (h only (by simp)))
  · rw [bracketedArgs_range] at ha
    rcases (by simpa using ha : a = first.opened ∨ a ∈ middles ∨ a = last.closed)
      with rfl | hmiddle | rfl
    · exact hopened (h first (by simp))
    · exact h a (by simp [hmiddle])
    · exact hclosed (h last (by simp))

theorem loneMissing_bracketedArgs (elements : List Expr) :
    loneMissing (bracketedArgs elements) = false := by
  rcases ends_cases elements with rfl | ⟨only, rfl⟩ | ⟨first, middles, last, rfl⟩
  · exact isMissing_closed (missing .blank).opened
  · exact isMissing_closed only.opened
  · rw [bracketedArgs_range]
    cases middles <;> rfl

theorem wellFormed_bracketed {elements : List Expr} (h : ∀ e ∈ elements, e.WellFormed) :
    (bracketed elements).WellFormed := by
  refine wellFormed_iff.mpr ⟨⟨rfl, loneMissing_bracketedArgs elements⟩, fun c hc => ?_⟩
  rcases List.mem_cons.mp hc with rfl | hc
  · exact wellFormed_missing _
  · exact forall_bracketedArgs .opened .closed (wellFormed_missing _) h c hc

theorem resolved_bracketed {elements : List Expr} (h : ∀ e ∈ elements, e.Resolved) :
    (bracketed elements).Resolved := by
  refine resolved_iff.mpr ⟨trivial, fun c hc => ?_⟩
  rcases List.mem_cons.mp hc with rfl | hc
  · exact resolved_missing _
  · exact forall_bracketedArgs .opened .closed (resolved_missing _) h c hc

end Expr

end ListSugar
