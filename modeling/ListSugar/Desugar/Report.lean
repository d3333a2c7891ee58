/-
What a desugaring run is asked to do and what it reports.

Every list literal that the pass meets is a site: its place, how many elements it
has, their type, and whether it was expanded or left as it was.  A literal is left
only when its type is unknown and the policy says so.
-/
import ListSugar.Pos
import ListSugar.Ty

namespace ListSugar

/-- What to do with a literal whose element type is unknown. -/
inductive Policy where
  /-- Leave it as it is. -/
  | abstain
  /-- Expand it with a type argument that is not resolved. -/
  | proceed
deriving DecidableEq, Repr

/-- The choices of a run. -/
structure Options where
  /-- The generic type to construct. -/
  container : String := "List"
  onUnresolved : Policy := .abstain
deriving DecidableEq, Repr

/-- What became of a literal. -/
inductive Outcome where
  | expanded
  | abstained
deriving DecidableEq, Repr

/-- A list literal that the pass met. -/
structure Site where
  pos : Pos
  /-- How many elements the literal has. -/
  count : Nat
  /-- The type of the elements. -/
  ty : Ty
  outcome : Outcome
deriving Repr

/-- The literals of a run, in the order in which they were met. -/
structure Report where
  sites : List Site
deriving Repr

namespace Report

/-- The report of a run that met no literal. -/
def empty : Report := ⟨[]⟩

/-- How many literals had the given outcome. -/
def countOf (r : Report) (outcome : Outcome) : Nat :=
  r.sites.countP fun s => s.outcome = outcome

/-- How many literals were expanded. -/
def expanded (r : Report) : Nat := r.countOf .expanded

/-- How many literals were left as they were. -/
def abstained (r : Report) : Nat := r.countOf .abstained

end Report

end ListSugar
