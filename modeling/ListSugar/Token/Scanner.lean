/-
One piece from the front of a text.

The scanner looks at a list of characters and says what stands at its head: a gap
(white space or a comment), a token, or a fault.  Whatever it says, it also gives
the characters it used up and the ones it left, and the two together are the text
it was given.  Positions play no part here; they follow from the characters used
up.

A piece is as long as its rule allows.  Symbols of two characters are tried before
those of one, a number takes a point only when a digit follows it, and a block
comment ends at the first `*/` after its opening.
-/
import ListSugar.Text.Alphabetic
import ListSugar.Text.Numeric
import ListSugar.Text.Ranges
import ListSugar.Token.Basic

namespace ListSugar

/-- Why the characters at the head of a text form no piece. -/
inductive Fault where
  /-- A block comment without its end. -/
  | openComment
  /-- A literal without its closing quote. -/
  | openLiteral (quote : Text.Quote)
  /-- A backslash before a character that it cannot escape. -/
  | unknownEscape (c : Char) (quote : Text.Quote)
  /-- A character literal with nothing in it. -/
  | emptyCharacter
  /-- A character literal that goes on after its first character. -/
  | longCharacter
  /-- A whole number of more than sixty-three bits. -/
  | largeInteger
  /-- A character that begins no piece. -/
  | unknownCharacter (c : Char)
deriving DecidableEq, Repr

namespace Fault

/-- The wording of a fault. -/
def message : Fault → String
  | .openComment => "Unterminated block comment"
  | .openLiteral quote => "Unterminated " ++ quote.name
  | .unknownEscape c quote =>
    "Unknown escape sequence '\\" ++ String.singleton c ++ "' in " ++ quote.name
  | .emptyCharacter => "Empty character literal"
  | .longCharacter => "Character literal must contain exactly one character"
  | .largeInteger => "Invalid integer literal"
  | .unknownCharacter c => "Unknown character: " ++ Text.messageQuoted .character [c]

/-- Whether the fault is reported where the piece begins; all others are reported
after the characters used up. -/
def atStart : Fault → Bool
  | .openComment => true
  | .unknownCharacter _ => true
  | _ => false

end Fault

theorem map_eq_ok_iff {ε α β : Type} {x : Except ε α} {f : α → β} {b : β} :
    x.map f = .ok b ↔ ∃ a, x = .ok a ∧ f a = b := by
  cases x with
  | error e => simp [Except.map]
  | ok a => simp [Except.map]

/-- What was read from the front of a text. -/
structure Scan (α : Type) where
  /-- The value read, or why there is none. -/
  value : Except Fault α
  /-- The characters used up. -/
  taken : List Char
  /-- The characters that follow them. -/
  rest : List Char

namespace Scan

/-- The same scan of a text that has `cs` in front. -/
def after {α : Type} (s : Scan α) (cs : List Char) : Scan α :=
  { s with taken := cs ++ s.taken }

/-- The scan with its value changed by `f`. -/
def map {α β : Type} (f : α → β) (s : Scan α) : Scan β :=
  ⟨s.value.map f, s.taken, s.rest⟩

/-- Whether the characters used up and those left are exactly `cs`. -/
def Covers {α : Type} (s : Scan α) (cs : List Char) : Prop := s.taken ++ s.rest = cs

theorem Covers.after {α : Type} {s : Scan α} {cs : List Char} (h : s.Covers cs)
    (front : List Char) : (s.after front).Covers (front ++ cs) := by
  simp only [Covers, Scan.after, List.append_assoc]
  rw [show s.taken ++ s.rest = cs from h]

theorem Covers.map {α β : Type} {s : Scan α} {cs : List Char} (h : s.Covers cs) (f : α → β) :
    (s.map f).Covers cs := h

end Scan

/-- What can stand at the head of a text. -/
inductive Piece where
  /-- White space or a comment. -/
  | gap
  | token (t : Token)

namespace Scanner

/-! ### Gaps -/

/-- A comment up to the end of its line; the line end is not part of it. -/
def lineComment (cs : List Char) : Scan Piece :=
  ⟨.ok .gap, cs.takeWhile (· != '\n'), cs.dropWhile (· != '\n')⟩

/-- A block comment, after its opening. -/
def blockComment : List Char → Scan Piece
  | [] => ⟨.error .openComment, [], []⟩
  | c :: rest =>
    if c = '*' ∧ rest.head? = some '/' then ⟨.ok .gap, [c, '/'], rest.drop 1⟩
    else (blockComment rest).after [c]

/-! ### Quoted literals

A backslash and the character behind it are read together, whatever that character is.
Anywhere else a line end closes no literal and stays in the text, so that a scan can go on
from there.
-/

/-- The content of a string literal, after its opening quote.  A line end closes no
literal and is left in the text. -/
def stringBody : List Char → Scan (List Char)
  | [] => ⟨.error (.openLiteral .string), [], []⟩
  | c :: rest =>
    if c = Text.Quote.string.mark then ⟨.ok [], [c], rest⟩
    else if c = '\n' then ⟨.error (.openLiteral .string), [], c :: rest⟩
    else if c = '\\' then
      match rest with
      | [] => ⟨.error (.openLiteral .string), [c], []⟩
      | e :: rest =>
        match Text.unescape? e with
        | some value => ((stringBody rest).map (value :: ·)).after [c, e]
        | none => ⟨.error (.unknownEscape e .string), [c, e], rest⟩
    else ((stringBody rest).map (c :: ·)).after [c]

/-- The closing quote of a character literal that holds `value`. -/
def closeCharacter (value : Char) : List Char → Scan Char
  | [] => ⟨.error .longCharacter, [], []⟩
  | c :: rest =>
    if c = Text.Quote.character.mark then ⟨.ok value, [c], rest⟩
    else ⟨.error .longCharacter, [], c :: rest⟩

/-- The content of a character literal, after its opening quote. -/
def characterBody : List Char → Scan Char
  | [] => ⟨.error .emptyCharacter, [], []⟩
  | c :: rest =>
    if c = '\n' ∨ c = Text.Quote.character.mark then ⟨.error .emptyCharacter, [], c :: rest⟩
    else if c = '\\' then
      match rest with
      | [] => ⟨.error (.openLiteral .character), [c], []⟩
      | e :: rest =>
        match Text.unescape? e with
        | some value => (closeCharacter value rest).after [c, e]
        | none => ⟨.error (.unknownEscape e .character), [c, e], rest⟩
    else (closeCharacter c rest).after [c]

/-! ### Numbers, words and symbols -/

/-- Whether a text begins with a point that a digit follows. -/
def startsFraction : List Char → Bool
  | c :: d :: _ => c == '.' && d.isDigit
  | _ => false

/-- The token of a whole number, unless it needs more than sixty-three bits. -/
def integerToken (digits : List Char) : Except Fault Token :=
  if Decimal.valueOf digits < 2 ^ (63 : Nat) then .ok (.int (Decimal.valueOf digits))
  else .error .largeInteger

/-- A number with a fraction: the digits before the point, and the text behind it. -/
def fractional (whole behind : List Char) : Scan Token :=
  ⟨.ok (.double (Decimal.ofDigits whole (behind.takeWhile Char.isDigit)).toDouble),
    whole ++ '.' :: behind.takeWhile Char.isDigit, behind.dropWhile Char.isDigit⟩

/-- A number: digits, and a fraction if a point and a digit follow them. -/
def number (cs : List Char) : Scan Token :=
  if startsFraction (cs.dropWhile Char.isDigit) then
    fractional (cs.takeWhile Char.isDigit) ((cs.dropWhile Char.isDigit).drop 1)
  else
    ⟨integerToken (cs.takeWhile Char.isDigit), cs.takeWhile Char.isDigit,
      cs.dropWhile Char.isDigit⟩

/-- Whether a word may begin with `c`. -/
def isWordStart (c : Char) : Bool := Text.isAlphabetic c || c == '_'

/-- Whether a word may go on with `c`. -/
def isWordChar (c : Char) : Bool := Text.isAlphabetic c || Text.isNumeric c || c == '_'

theorem isWordChar_of_isWordStart {c : Char} (h : isWordStart c = true) : isWordChar c = true := by
  rcases (by simpa [isWordStart] using h : Text.isAlphabetic c = true ∨ c = '_') with h | h
  · simp [isWordChar, h]
  · simp [isWordChar, h]

/-- A name, keyword or named literal. -/
def word (cs : List Char) : Scan Token :=
  ⟨.ok (.ofWord (String.ofList (cs.takeWhile isWordChar))), cs.takeWhile isWordChar,
    cs.dropWhile isWordChar⟩

/-- A symbol at the head of a text that begins with `c`; a character that begins none
is used up all the same. -/
def symbol (c : Char) (rest : List Char) : Scan Token :=
  match Symbol.all.find? (·.spelling.isPrefixOf (c :: rest)) with
  | some sign => ⟨.ok (.symbol sign), sign.spelling, (c :: rest).drop sign.spelling.length⟩
  | none => ⟨.error (.unknownCharacter c), [c], rest⟩

/-! ### Any piece -/

/-- The piece at the head of a text that begins with `c`. -/
def piece (c : Char) (rest : List Char) : Scan Piece :=
  if Text.isWhiteSpace c then ⟨.ok .gap, [c], rest⟩
  else if c = '/' ∧ rest.head? = some '/' then lineComment (c :: rest)
  else if c = '/' ∧ rest.head? = some '*' then (blockComment (rest.drop 1)).after [c, '*']
  else if c = Text.Quote.string.mark then
    ((stringBody rest).map (Piece.token ∘ Token.str ∘ String.ofList)).after [c]
  else if c = Text.Quote.character.mark then
    ((characterBody rest).map (Piece.token ∘ Token.char)).after [c]
  else if c.isDigit then (number (c :: rest)).map .token
  else if isWordStart c then (word (c :: rest)).map .token
  else (symbol c rest).map .token

/-! ### Nothing is lost

Whatever a scan says, the characters it used up and those it left are the text it
was given, and a piece uses up at least one. -/

theorem blockComment_covers (cs : List Char) : (blockComment cs).Covers cs := by
  induction cs with
  | nil => rfl
  | cons c rest ih =>
    rw [blockComment]
    split
    · next h =>
      obtain ⟨_, h⟩ := h
      cases rest with
      | nil => simp at h
      | cons d rest =>
        obtain rfl : d = '/' := by simpa using h
        rfl
    · exact ih.after [c]

theorem stringBody_covers (cs : List Char) : (stringBody cs).Covers cs := by
  fun_induction stringBody cs with
  | case1 => rfl
  | case2 => rfl
  | case3 => rfl
  | case4 => rfl
  | case5 _ _ e _ _ _ ih => exact (ih.map _).after _
  | case6 => rfl
  | case7 c _ _ _ _ ih => exact (ih.map _).after [c]

theorem closeCharacter_covers (value : Char) (cs : List Char) :
    (closeCharacter value cs).Covers cs := by
  unfold closeCharacter
  split
  · rfl
  · split <;> rfl

theorem characterBody_covers (cs : List Char) : (characterBody cs).Covers cs := by
  unfold characterBody
  split
  · rfl
  · next c rest =>
    split
    · rfl
    split
    · split
      · rfl
      · next e rest =>
        split
        · exact (closeCharacter_covers _ rest).after [c, e]
        · rfl
    · exact (closeCharacter_covers c rest).after [c]

/-- A text that begins a fraction begins with a point. -/
theorem eq_point_cons_of_startsFraction {cs : List Char} (h : startsFraction cs = true) :
    cs = '.' :: cs.drop 1 := by
  match cs, h with
  | p :: d :: tail, h =>
    have hp : p = '.' := by simp_all [startsFraction]
    simp [hp]

theorem number_covers (cs : List Char) : (number cs).Covers cs := by
  unfold number
  split
  · next h =>
    show (cs.takeWhile Char.isDigit ++ '.' :: ((cs.dropWhile Char.isDigit).drop 1).takeWhile _)
      ++ ((cs.dropWhile Char.isDigit).drop 1).dropWhile _ = cs
    rw [List.append_assoc, List.cons_append, List.takeWhile_append_dropWhile,
      ← eq_point_cons_of_startsFraction h, List.takeWhile_append_dropWhile]
  · exact List.takeWhile_append_dropWhile

theorem word_covers (cs : List Char) : (word cs).Covers cs :=
  List.takeWhile_append_dropWhile

theorem symbol_covers (c : Char) (rest : List Char) : (symbol c rest).Covers (c :: rest) := by
  unfold symbol
  split
  · next sign h =>
    have hp : sign.spelling <+: c :: rest := by
      simpa using List.find?_some h
    obtain ⟨tail, ht⟩ := hp
    show sign.spelling ++ (c :: rest).drop sign.spelling.length = c :: rest
    rw [← ht, List.drop_left]
  · rfl

/-- The characters of a piece and those behind it are the text. -/
theorem piece_covers (c : Char) (rest : List Char) : (piece c rest).Covers (c :: rest) := by
  unfold piece
  split
  · rfl
  split
  · exact List.takeWhile_append_dropWhile
  split
  · next h =>
    obtain ⟨_, h⟩ := h
    cases rest with
    | nil => simp at h
    | cons d rest =>
      obtain rfl : d = '*' := by simpa using h
      exact (blockComment_covers rest).after [c, '*']
  split
  · exact ((stringBody_covers rest).map _).after [c]
  split
  · exact ((characterBody_covers rest).map _).after [c]
  split
  · exact (number_covers (c :: rest)).map _
  split
  · exact (word_covers (c :: rest)).map _
  · exact (symbol_covers c rest).map _

/-- A piece uses up at least one character. -/
theorem piece_taken_ne_nil (c : Char) (rest : List Char) : (piece c rest).taken ≠ [] := by
  unfold piece
  split
  · simp
  split
  · next h => simp [lineComment, h.1]
  split
  · simp [Scan.after]
  split
  · simp [Scan.after]
  split
  · simp [Scan.after]
  split
  · next h =>
    show (number (c :: rest)).taken ≠ []
    unfold number
    split <;> simp [fractional, h]
  split
  · next h =>
    show (c :: rest).takeWhile isWordChar ≠ []
    simp [isWordChar_of_isWordStart h]
  · show (symbol c rest).taken ≠ []
    unfold symbol
    split
    · next sign _ => cases sign <;> simp [Symbol.spelling]
    · simp

end Scanner

end ListSugar
