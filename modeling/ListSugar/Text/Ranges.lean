/-
Sets of characters given by ranges of code points.

The character classes of the library are properties of the Unicode standard, and
the standard publishes them as lists of ranges.  A table is such a list, in
increasing order; a character belongs to it when some range holds its code point.

The properties with long tables have modules of their own; two with short ones are
given here.
-/

namespace ListSugar.Text

/-- A list of inclusive ranges of code points, in increasing order. -/
abbrev Ranges := List (Nat × Nat)

namespace Ranges

/-- Whether some range of the table holds the code point `n`.  The ranges are in
increasing order, so the search stops at the first one that begins above `n`. -/
def holds : Ranges → Nat → Bool
  | [], _ => false
  | (lo, hi) :: rest, n => if n < lo then false else n ≤ hi || holds rest n

end Ranges

/-! ### White space

The property White_Space has the twenty-five characters that separate tokens: the ASCII
blanks and line ends, the next-line control, and the spaces and separators of the standard.
-/

/-- All ranges of the property White_Space. -/
def WhiteSpace.ranges : Ranges :=
  [(0x9, 0xd), (0x20, 0x20), (0x85, 0x85), (0xa0, 0xa0), (0x1680, 0x1680), (0x2000, 0x200a),
    (0x2028, 0x2029), (0x202f, 0x202f), (0x205f, 0x205f), (0x3000, 0x3000)]

/-- Whether `c` has the property White_Space. -/
def isWhiteSpace (c : Char) : Bool :=
  WhiteSpace.ranges.holds c.toNat

/-! ### Characters that are shown as nothing

The property Default_Ignorable_Code_Point has the format controls, variation selectors, the
fillers of Hangul syllables, and the code points that the standard keeps free for more of
them.  The fillers are letters, so an identifier may be made of them; a quoted text in a
message shows them by number.
-/

/-- All ranges of the property Default_Ignorable_Code_Point. -/
def DefaultIgnorable.ranges : Ranges :=
  [(0xad, 0xad), (0x34f, 0x34f), (0x61c, 0x61c), (0x115f, 0x1160), (0x17b4, 0x17b5),
    (0x180b, 0x180f), (0x200b, 0x200f), (0x202a, 0x202e), (0x2060, 0x206f), (0x3164, 0x3164),
    (0xfe00, 0xfe0f), (0xfeff, 0xfeff), (0xffa0, 0xffa0), (0xfff0, 0xfff8),
    (0x1bca0, 0x1bca3), (0x1d173, 0x1d17a), (0xe0000, 0xe0fff)]

/-- Whether `c` has the property Default_Ignorable_Code_Point. -/
def isDefaultIgnorable (c : Char) : Bool :=
  DefaultIgnorable.ranges.holds c.toNat

end ListSugar.Text
