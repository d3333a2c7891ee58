/-
Double-precision numbers by their bit pattern.

A pattern is a sign, eleven bits of exponent and fifty-two bits of fraction.  Every
finite double is a whole number of *units*, a unit being the least positive double
`2 ^ (-1074)`, so magnitudes are natural numbers here and no rounding is hidden in
the arithmetic of the host.  `nearest` is the one rounding step: it takes a
fraction to the double closest to it, a half going to the even pattern, and a
fraction too large for any finite double to infinity.
-/

namespace ListSugar

/-- Powers of natural numbers are those of the core library, whatever else is in scope. -/
scoped instance (priority := high) corePow : Pow Nat Nat := instPowNat

/-- A double-precision number, given by its bit pattern. -/
structure Double where
  bits : UInt64
deriving DecidableEq, Repr

namespace Double

/-- How many bits the fraction has. -/
def fractionBits : Nat := 52

/-- Units of the least positive double in one. -/
def unitsPerOne : Nat := 2 ^ (1074 : Nat)

/-- The pattern of infinity; patterns of finite numbers lie below it. -/
def infinityPattern : Nat := 2047 * 2 ^ fractionBits

/-- The double with the given pattern. -/
def ofPattern (n : Nat) : Double := ⟨UInt64.ofNat n⟩

/-- Whether the sign bit is set. -/
def isNegative (d : Double) : Bool := 2 ^ (63 : Nat) ≤ d.bits.toNat

/-- The pattern without its sign bit.  It grows with the magnitude. -/
def magnitude (d : Double) : Nat := d.bits.toNat % 2 ^ (63 : Nat)

/-- The number without its sign. -/
def abs (d : Double) : Double := ofPattern d.magnitude

/-- Whether this is not a number. -/
def isNaN (d : Double) : Bool := infinityPattern < d.magnitude

/-- Whether this is one of the two infinities. -/
def isInfinite (d : Double) : Bool := d.magnitude == infinityPattern

/-- Whether this is one of the two zeros. -/
def isZero (d : Double) : Bool := d.magnitude == 0

/-- How many units a finite double of the given magnitude has: below the first
exponent step the pattern counts units itself, and each step after it doubles what
one step of the pattern is worth. -/
def units (d : Double) : Nat :=
  if d.magnitude < 2 ^ fractionBits then d.magnitude
  else (2 ^ fractionBits + d.magnitude % 2 ^ fractionBits)
    * 2 ^ (d.magnitude / 2 ^ fractionBits - 1)

/-- The whole number nearest to `n / d`, a half going to the even one. -/
def roundHalfEven (n d : Nat) : Nat :=
  if d < 2 * (n % d) ∨ (d = 2 * (n % d) ∧ (n / d) % 2 = 1) then n / d + 1 else n / d

/-- The double nearest to the fraction `n / d`.  The exponent comes from the number
of whole units, and rounding up to the next power of two carries into it. -/
def nearest (n d : Nat) : Double :=
  let wholeUnits := n * unitsPerOne / d
  let shift := wholeUnits.log2 - fractionBits
  let pattern := shift * 2 ^ fractionBits + roundHalfEven (n * unitsPerOne) (d * 2 ^ shift)
  ofPattern (min pattern infinityPattern)

end Double

end ListSugar
