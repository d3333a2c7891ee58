/-
Text between quotes, in the two forms the library writes.

A *source* form is what the scanner reads back: five characters have a letter
escape, and the enclosing quote is escaped, whichever of the two it is.  A
*message* form is for people: it also shows by number every character that would
not be seen on its own.  The two share the letter escapes, and `unescape` reads
one of them back.
-/
import ListSugar.Text.GraphemeExtend
import ListSugar.Text.Unprintable

namespace ListSugar.Text

/-- The two kinds of quoted literal. -/
inductive Quote where
  /-- Double quotes around any number of characters. -/
  | string
  /-- Single quotes around one character. -/
  | character
deriving DecidableEq, Repr

namespace Quote

/-- The quote that opens and closes a literal of this kind. -/
def mark : Quote → Char
  | .string => '"'
  | .character => '\x27'

/-- The name of this kind of literal in messages. -/
def name : Quote → String
  | .string => "string literal"
  | .character => "character literal"

end Quote

/-- The letter that stands for `c` after a backslash, for the characters that have
one whatever the quote. -/
def letterEscape? (c : Char) : Option Char :=
  if c = '\n' then some 'n'
  else if c = '\t' then some 't'
  else if c = '\r' then some 'r'
  else if c = '\x00' then some '0'
  else if c = '\\' then some '\\'
  else none

/-- The character that `c` stands for after a backslash; both quotes may be escaped
in either kind of literal. -/
def unescape? (c : Char) : Option Char :=
  if c = 'n' then some '\n'
  else if c = 't' then some '\t'
  else if c = 'r' then some '\r'
  else if c = '0' then some '\x00'
  else if c = '"' then some '"'
  else if c = '\x27' then some '\x27'
  else if c = '\\' then some '\\'
  else none

/-- How `c` is written inside a literal of kind `q` in a source text. -/
def sourceChar (q : Quote) (c : Char) : List Char :=
  match letterEscape? c with
  | some letter => ['\\', letter]
  | none => if c = q.mark then ['\\', c] else [c]

/-- A quoted literal of kind `q` with content `cs`, as a source text holds it. -/
def sourceQuoted (q : Quote) (cs : List Char) : String :=
  String.ofList (q.mark :: cs.flatMap (sourceChar q) ++ [q.mark])

/-- The number of `c` in hexadecimal, as `\u` escapes show it. -/
def numberEscape (c : Char) : List Char :=
  ['\\', 'u', '\x7b'] ++ Nat.toDigits 16 c.toNat ++ ['\x7d']

/-- Whether `c` is one of the two halfwidth voicing marks.  They extend the character
before them, and still are letters that fill a cell of their own. -/
def isHalfwidthVoicing (c : Char) : Bool := c = '\uff9e' || c = '\uff9f'

/-- Whether `c` would not be seen on its own: it prints nothing, may be ignored, or
attaches to the character before it without a cell of its own. -/
def isHidden (c : Char) : Bool :=
  isUnprintable c || isDefaultIgnorable c || (isGraphemeExtend c && !isHalfwidthVoicing c)

/-- How `c` is written inside a literal of kind `q` in a message. -/
def messageChar (q : Quote) (c : Char) : List Char :=
  match letterEscape? c with
  | some letter => ['\\', letter]
  | none =>
    if c = q.mark then ['\\', c]
    else if isHidden c then numberEscape c
    else [c]

/-- A quoted literal of kind `q` with content `cs`, as a message shows it. -/
def messageQuoted (q : Quote) (cs : List Char) : String :=
  String.ofList (q.mark :: cs.flatMap (messageChar q) ++ [q.mark])

/-- Every escape that writing produces is one that reading knows. -/
theorem unescape?_of_letterEscape? {c letter : Char} (h : letterEscape? c = some letter) :
    unescape? letter = some c := by
  unfold letterEscape? at h
  split at h
  · cases h; subst_vars; decide
  split at h
  · cases h; subst_vars; decide
  split at h
  · cases h; subst_vars; decide
  split at h
  · cases h; subst_vars; decide
  split at h
  · cases h; subst_vars; decide
  · cases h

/-- An escaped quote reads back as that quote. -/
theorem unescape?_mark (q : Quote) : unescape? q.mark = some q.mark := by
  cases q <;> decide

end ListSugar.Text
