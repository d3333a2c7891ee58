/-
The text of a double, in the two forms the library writes.

Both use the shortest digits that read back.  A *source* text never has an
exponent and always has a point, so that the scanner takes it for a double again.
A *message* text turns to an exponent for very large and very small numbers.
-/
import ListSugar.Double.Decimal

namespace ListSugar

namespace Decimal

/-- A run of `n` zeros. -/
def zeros (n : Nat) : List Char := List.replicate n '0'

/-- The digits laid out around a decimal point; a whole number has no point. -/
def positional (d : Decimal) : List Char :=
  let ds := d.significant
  if d.point ≤ 0 then '0' :: '.' :: zeros (-d.point).toNat ++ ds
  else
    let before := d.point.toNat
    if ds.length ≤ before then ds ++ zeros (before - ds.length)
    else ds.take before ++ '.' :: ds.drop before

/-- One digit, the others after a point, and the power of ten. -/
def scientific (d : Decimal) : List Char :=
  let power := 'e' :: (toString (d.point - 1)).toList
  match d.significant with
  | [] => '0' :: power
  | [digit] => digit :: power
  | digit :: others => digit :: '.' :: others ++ power

end Decimal

namespace Double

/-- The magnitude of a finite double without an exponent. -/
def positional (d : Double) : List Char :=
  if d.isZero then ['0'] else d.shortest.positional

/-- The minus sign of a negative number. -/
def signText (d : Double) : List Char := if d.isNegative then ['-'] else []

/-- The magnitude, or the name of a value that has none. -/
def plainText (d : Double) : List Char :=
  if d.isNaN then ['N', 'a', 'N']
  else if d.isInfinite then d.signText ++ ['i', 'n', 'f']
  else d.signText ++ d.positional

/-- The text with a fraction of zero where it has no point. -/
def withPoint (text : List Char) : List Char :=
  if '.' ∈ text then text else text ++ ['.', '0']

/-- The double as a source text writes it: no exponent, always a point. -/
def sourceText (d : Double) : String :=
  String.ofList (withPoint d.plainText)

/-- Messages write smaller magnitudes than this with an exponent. -/
def messageLow : Double := nearest 1 (10 ^ (4 : Nat))

/-- Messages write this magnitude and larger ones with an exponent. -/
def messageHigh : Double := nearest (10 ^ (16 : Nat)) 1

/-- Whether messages write this finite double with an exponent. -/
def usesExponent (d : Double) : Bool :=
  messageHigh.magnitude ≤ d.magnitude || (!d.isZero && d.magnitude < messageLow.magnitude)

/-- The double as a message shows it. -/
def messageText (d : Double) : String :=
  String.ofList <|
    if d.isNaN || d.isInfinite then d.plainText
    else if d.usesExponent then d.signText ++ d.shortest.scientific
    else withPoint d.plainText

end Double

end ListSugar
