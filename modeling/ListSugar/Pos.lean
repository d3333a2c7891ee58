/-
Where a character stands in a text.

A position is a line and a column, both counted from one, in characters.  Nothing
else in the library computes positions: scanning uses up a list of characters, and
`Pos.past` says where the text then stands.
-/

namespace ListSugar

/-- A place in a text: line and column, both counted from one. -/
structure Pos where
  line : Nat
  col : Nat
deriving DecidableEq, Repr

namespace Pos

/-- The place of the first character of a text. -/
def start : Pos := ⟨1, 1⟩

/-- The place just after the character `c` when `c` stands at `p`. -/
def after (p : Pos) (c : Char) : Pos :=
  if c = '\n' then ⟨p.line + 1, 1⟩ else ⟨p.line, p.col + 1⟩

/-- The place just after the characters `cs` when the first of them stands at `p`. -/
def past (p : Pos) (cs : List Char) : Pos :=
  cs.foldl after p

/-- The text `line:col`, as messages show a place. -/
def text (p : Pos) : String :=
  toString p.line ++ ":" ++ toString p.col

@[simp] theorem past_nil (p : Pos) : p.past [] = p := rfl

@[simp] theorem past_cons (p : Pos) (c : Char) (cs : List Char) :
    p.past (c :: cs) = (p.after c).past cs := rfl

theorem past_append (p : Pos) (as bs : List Char) :
    p.past (as ++ bs) = (p.past as).past bs := by
  simp [past]

end Pos

end ListSugar
