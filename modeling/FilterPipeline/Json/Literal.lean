import FilterPipeline.Json.Source
import FilterPipeline.Number.Numeral

/-!
# Numbers in a JSON text

An integer that fits into 64 bits, with or without sign, is that integer. Every other number is read
as a double, and quickly rather than exactly: its first digits make a whole number of 64 bits, which
is rounded to a double and then multiplied or divided by a rounded power of ten. The steps round one
by one, so the result can miss the double that is nearest to the numeral by a few last places.
-/

namespace FilterPipeline.Json.Literal

/-- Whether a numeral has the form that JSON admits: no plus sign, no superfluous zero in front, and
digits on both sides of a point. -/
def admits (n : Numeral) : Bool :=
  n.sign != some '+' &&
    (match n.whole with
      | [] => false
      | first :: rest => first != '0' || rest.isEmpty) &&
    n.fraction != some []

/-- The greatest whole number of 64 bits without sign, `2 ^ 64 - 1`. -/
def maxUInt64 : Nat := 18446744073709551615

/-- Writes digits behind a number as long as it fits into 64 bits; with the digits from the first
one on that does not. -/
def gather (n : Nat) : List Char → Nat × List Char
  | [] => (n, [])
  | c :: cs =>
    let next := Numeral.putDigit n c
    if next ≤ maxUInt64 then gather next cs else (n, c :: cs)

/-- The number of 64 bits that the first digits of a numeral make, and the power of ten that its
last digit counts. What does not fit before the point counts places, what does not fit behind it is
dropped. -/
def significand (n : Numeral) : Nat × Int :=
  let (m, left) := gather 0 n.whole
  let fraction := n.fraction.getD []
  let (m, dropped) := gather m fraction
  (m, n.power + left.length - (fraction.length - dropped.length : Nat))

/-- The double nearest to a power of ten. -/
def tenPower (p : Nat) : Double := .ofDecimal false 1 p

/-- The number `m * 10 ^ p` with a sign, rounded step by step; nothing past the greatest double.
Powers of ten up to 308 have doubles, so a smaller number is divided by that one first; below `-616`
nothing is left of a number of 64 bits. -/
def scaled? (negative : Bool) (m : Nat) (p : Int) : Option Double :=
  let x := Double.round negative m 1
  if m = 0 then some (.zero negative)
  else if 308 < p then none
  else if 0 ≤ p then (x.mul? (tenPower p.toNat)).filter Double.isFinite
  else if -308 ≤ p then x.div? (tenPower (-p).toNat)
  else if -616 ≤ p then do (← x.div? (tenPower 308)).div? (tenPower (-p - 308).toNat)
  else some (.zero negative)

/-- The double that a numeral is read as. -/
def toDouble? (n : Numeral) : Option Double :=
  let (m, p) := significand n
  scaled? n.isNegative m p

/-- The number that a numeral is: an integer when it is written as one and fits into 64 bits, else a
double, unless that overflows. The numeral `-0` is the double. -/
def read (n : Numeral) : Source :=
  let magnitude : Int := n.coefficient
  let value := if n.isNegative then -magnitude else magnitude
  if n.fraction.isNone && n.exponent.isNone && Double.minInt64 ≤ value && value ≤ maxUInt64 &&
      !(n.isNegative && magnitude == 0) then
    .int value
  else (toDouble? n).elim .unreadable .double

end FilterPipeline.Json.Literal
