/-
Tokens of a whole text, with their places.

A cursor is what is left of a text and where it stands.  `tokenize` reads pieces
until the text is used up and ends the tokens with the end mark.  A fault stops it,
and the cursor it then gives lets the caller go on behind the faulty piece; every
piece uses up at least one character, so the text bounds the number of pieces.
-/
import ListSugar.Token.Scanner

namespace ListSugar

/-- A fault and the place where it is reported. -/
structure LexError where
  fault : Fault
  pos : Pos
deriving DecidableEq, Repr

/-- The report of a fault. -/
def LexError.text (e : LexError) : String :=
  "Lexer error [" ++ e.pos.text ++ "]: " ++ e.fault.message

/-- The unread part of a text and the place of its first character. -/
structure Cursor where
  rest : List Char
  pos : Pos
deriving DecidableEq, Repr

namespace Cursor

/-- The cursor at the beginning of a text. -/
def ofText (source : String) : Cursor := ⟨source.toList, .start⟩

/-- The cursor behind what a scan used up. -/
def behind {α : Type} (c : Cursor) (s : Scan α) : Cursor := ⟨s.rest, c.pos.past s.taken⟩

/-- Where the fault of a scan that began at `c` is reported. -/
def locate {α : Type} (c : Cursor) (s : Scan α) (fault : Fault) : LexError :=
  ⟨fault, if fault.atStart then c.pos else (c.behind s).pos⟩

/-- The tokens of at most `count` pieces, then the end mark. -/
def tokens : Nat → Cursor → Except LexError (List Located) × Cursor
  | 0, c => (.ok [⟨.eof, c.pos⟩], c)
  | count + 1, c =>
    match c.rest with
    | [] => (.ok [⟨.eof, c.pos⟩], c)
    | first :: others =>
      let scan := Scanner.piece first others
      match scan.value with
      | .error fault => (.error (c.locate scan fault), c.behind scan)
      | .ok .gap => tokens count (c.behind scan)
      | .ok (.token t) =>
        let (result, last) := tokens count (c.behind scan)
        (result.map (⟨t, c.pos⟩ :: ·), last)

/-- All tokens from the cursor on, and the cursor behind them.  No text has more
pieces than characters. -/
def tokenize (c : Cursor) : Except LexError (List Located) × Cursor :=
  tokens c.rest.length c

end Cursor

/-- The tokens of a text. -/
def tokenize (source : String) : Except LexError (List Located) :=
  (Cursor.ofText source).tokenize.1

end ListSugar
