/-
Declarations in sight.

A scope is a frame of declarations and the frames around it.  A name means what its
latest declaration in the innermost frame that has one says, even where that
declaration says that the type is unknown.
-/
import ListSugar.Ty

namespace ListSugar

/-- The declarations of one block, the latest first. -/
abbrev Frame := List (String × Ty)

/-- A frame and the frames around it, the nearest first. -/
structure Scope where
  inner : Frame
  outer : List Frame
deriving Repr

namespace Scope

/-- The scope of a program before its first statement. -/
def empty : Scope := ⟨[], []⟩

/-- The scope with one more declaration in its innermost frame. -/
def declare (s : Scope) (name : String) (ty : Ty) : Scope :=
  { s with inner := (name, ty) :: s.inner }

/-- All frames, the innermost first. -/
def frames (s : Scope) : List Frame := s.inner :: s.outer

/-- The type of a name, unknown if nothing in sight declares it. -/
def lookup (s : Scope) (name : String) : Ty :=
  (s.frames.findSome? (List.lookup name)).getD .unknown

/-- The scope inside a new block. -/
def enter (s : Scope) : Scope := ⟨[], s.frames⟩

/-- The scope after the end of a block. -/
def leave (s : Scope) : Scope :=
  match s.outer with
  | [] => s
  | frame :: rest => ⟨frame, rest⟩

@[simp] theorem leave_enter (s : Scope) : s.enter.leave = s := rfl

@[simp] theorem outer_declare (s : Scope) (name : String) (ty : Ty) :
    (s.declare name ty).outer = s.outer := rfl

end Scope

end ListSugar
