/-
The tokens of the host language.

A token is a literal, a name, one of six keywords, one of twenty-four symbols, or
the mark that ends a text.  `Token.text` is the form in which messages name a
token: literals and names show what they hold, all others only what they are.
-/
import ListSugar.Double.Printer
import ListSugar.Pos
import ListSugar.Text.Quoted

namespace ListSugar

/-- Words that cannot be used as names, apart from the literals among them. -/
inductive Keyword where
  | var
  | new
  | if_
  | else_
  | foreach
  | in_
deriving DecidableEq, Repr

namespace Keyword

/-- The name of a keyword in messages. -/
def text : Keyword → String
  | .var => "Var"
  | .new => "New"
  | .if_ => "If"
  | .else_ => "Else"
  | .foreach => "Foreach"
  | .in_ => "In"

/-- All keywords. -/
def all : List Keyword := [.var, .new, .if_, .else_, .foreach, .in_]

/-- How a keyword is spelled in a source text. -/
def spelling : Keyword → String
  | .var => "var"
  | .new => "new"
  | .if_ => "if"
  | .else_ => "else"
  | .foreach => "foreach"
  | .in_ => "in"

end Keyword

/-- Operators, brackets and separators. -/
inductive Symbol where
  | eq
  | neq
  | lte
  | gte
  | andAnd
  | orOr
  | assign
  | bang
  | lt
  | gt
  | plus
  | minus
  | star
  | slash
  | percent
  | dot
  | comma
  | semi
  | lParen
  | rParen
  | lBracket
  | rBracket
  | lBrace
  | rBrace
deriving DecidableEq, Repr

namespace Symbol

/-- The name of a symbol in messages. -/
def text : Symbol → String
  | .eq => "Eq"
  | .neq => "Neq"
  | .lte => "Lte"
  | .gte => "Gte"
  | .andAnd => "AndAnd"
  | .orOr => "OrOr"
  | .assign => "Assign"
  | .bang => "Bang"
  | .lt => "Lt"
  | .gt => "Gt"
  | .plus => "Plus"
  | .minus => "Minus"
  | .star => "Star"
  | .slash => "Slash"
  | .percent => "Percent"
  | .dot => "Dot"
  | .comma => "Comma"
  | .semi => "Semi"
  | .lParen => "LParen"
  | .rParen => "RParen"
  | .lBracket => "LBracket"
  | .rBracket => "RBracket"
  | .lBrace => "LBrace"
  | .rBrace => "RBrace"

/-- How a symbol is spelled in a source text. -/
def spelling : Symbol → List Char
  | .eq => ['=', '=']
  | .neq => ['!', '=']
  | .lte => ['<', '=']
  | .gte => ['>', '=']
  | .andAnd => ['&', '&']
  | .orOr => ['|', '|']
  | .assign => ['=']
  | .bang => ['!']
  | .lt => ['<']
  | .gt => ['>']
  | .plus => ['+']
  | .minus => ['-']
  | .star => ['*']
  | .slash => ['/']
  | .percent => ['%']
  | .dot => ['.']
  | .comma => [',']
  | .semi => [';']
  | .lParen => ['(']
  | .rParen => [')']
  | .lBracket => ['[']
  | .rBracket => [']']
  | .lBrace => ['\x7b']
  | .rBrace => ['\x7d']

/-- All symbols, those of two characters before those of one. -/
def all : List Symbol :=
  [.eq, .neq, .lte, .gte, .andAnd, .orOr, .assign, .bang, .lt, .gt, .plus, .minus, .star,
    .slash, .percent, .dot, .comma, .semi, .lParen, .rParen, .lBracket, .rBracket, .lBrace,
    .rBrace]

end Symbol

/-- A token of the host language. -/
inductive Token where
  | int (value : Int)
  | double (value : Double)
  | str (value : String)
  | char (value : Char)
  | bool (value : Bool)
  | null
  | ident (name : String)
  | keyword (word : Keyword)
  | symbol (sign : Symbol)
  /-- The end of the text. -/
  | eof
deriving DecidableEq, Repr

namespace Token

/-- A token as messages name it. -/
def text : Token → String
  | .int value => "Int(" ++ toString value ++ ")"
  | .double value => "Double(" ++ value.messageText ++ ")"
  | .str value => "Str(" ++ Text.messageQuoted .string value.toList ++ ")"
  | .char value => "Char(" ++ Text.messageQuoted .character [value] ++ ")"
  | .bool value => "Bool(" ++ toString value ++ ")"
  | .null => "Null"
  | .ident name => "Ident(" ++ Text.messageQuoted .string name.toList ++ ")"
  | .keyword word => word.text
  | .symbol sign => sign.text
  | .eof => "Eof"

/-- The token that a run of letters, digits and underscores spells: a keyword, a
literal with a name, or a name. -/
def ofWord (word : String) : Token :=
  match Keyword.all.find? (·.spelling = word) with
  | some found => .keyword found
  | none =>
    if word = "true" then .bool true
    else if word = "false" then .bool false
    else if word = "null" then .null
    else .ident word

end Token

/-- A token and the place of its first character. -/
structure Located where
  token : Token
  pos : Pos
deriving DecidableEq, Repr

end ListSugar
