import FilterPipeline.Number.Double

/-!
# Numerals

A decimal numeral is a sign, digits, a point and an exponent, each of which may be missing. The
formats that read numbers differ only in which of these numerals they admit; the value is the same.
-/

namespace FilterPipeline

/-- The parts of a decimal numeral. -/
structure Numeral where
  /-- The sign, when one is written. -/
  sign : Option Char
  /-- The digits before the point. -/
  whole : List Char
  /-- The digits after the point, when a point is written. -/
  fraction : Option (List Char)
  /-- The sign and the digits of the exponent, when one is written. -/
  exponent : Option (Option Char × List Char)

namespace Numeral

/-- The number that `n` becomes when a decimal digit is written behind it. -/
def putDigit (n : Nat) (digit : Char) : Nat := 10 * n + (digit.toNat - '0'.toNat)

/-- The number that decimal digits spell. -/
def digitsValue (digits : List Char) : Nat := digits.foldl putDigit 0

/-- A sign at the start of a text, and what follows. -/
def takeSign : List Char → Option Char × List Char
  | c :: cs => if c == '+' || c == '-' then (some c, cs) else (none, c :: cs)
  | [] => (none, [])

/-- The exponent that a text is: empty, or a letter `e`, a sign and at least one digit. -/
def readExponent? : List Char → Option (Option (Option Char × List Char))
  | [] => some none
  | c :: cs =>
    let (sign, digits) := takeSign cs
    if (c == 'e' || c == 'E') && !digits.isEmpty && digits.all Char.isDigit then
      some (some (sign, digits))
    else none

/-- The numeral that a whole text is. -/
def read? (cs : List Char) : Option Numeral :=
  let (sign, cs) := takeSign cs
  let whole := cs.takeWhile Char.isDigit
  match cs.dropWhile Char.isDigit with
  | '.' :: cs =>
    (readExponent? (cs.dropWhile Char.isDigit)).map
      (⟨sign, whole, some (cs.takeWhile Char.isDigit), ·⟩)
  | cs => (readExponent? cs).map (⟨sign, whole, none, ·⟩)

/-- Whether a minus is written. -/
def isNegative (n : Numeral) : Bool := n.sign == some '-'

/-- Whether there is a digit before or after the point. -/
def hasDigits (n : Numeral) : Bool := !n.whole.isEmpty || !(n.fraction.getD []).isEmpty

/-- All digits before the exponent as one number. -/
def coefficient (n : Numeral) : Nat := digitsValue (n.whole ++ n.fraction.getD [])

/-- The power of ten that is written; without one, zero. -/
def power (n : Numeral) : Int :=
  match n.exponent with
  | none => 0
  | some (sign, digits) => if sign == some '-' then -digitsValue digits else digitsValue digits

/-- The power of ten that the coefficient is multiplied by. -/
def scale (n : Numeral) : Int := n.power - ((n.fraction.getD []).length : Int)

/-- The binary64 value nearest to the numeral. -/
def toDouble (n : Numeral) : Double := .ofDecimal n.isNegative n.coefficient n.scale

/-- The finite value of a text that is a numeral with at least one digit; any sign, and a point
with digits on one side only, are admitted. -/
def finiteValue? (cs : List Char) : Option Double := do
  let n ← read? cs
  let x := n.toDouble
  if n.hasDigits && x.isFinite then some x else none

end Numeral
end FilterPipeline
