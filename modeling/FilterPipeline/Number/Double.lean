/-!
# Binary64 numbers

The values of the IEEE binary64 format in a form where equality of values is visible: a finite
number is an odd mantissa times a power of two. `Double.round` takes any fraction to the nearest
value, with ties to the even significand.
-/

namespace FilterPipeline

/-- A binary64 value. -/
inductive Double where
  /-- The number `mantissa * 2 ^ exponent`, or its opposite when `negative`. The mantissa is odd,
  or it is zero and so is the exponent. -/
  | finite (negative : Bool) (mantissa : Nat) (exponent : Int)
  /-- An infinity. -/
  | infinite (negative : Bool)
  /-- Not a number. -/
  | nan
deriving DecidableEq, Repr, Inhabited

namespace Double

/-- Moves factors of two from a mantissa to its exponent, as many as `fuel` allows. -/
def reduce : (fuel mantissa : Nat) → (exponent : Int) → Nat × Int
  | 0, m, q => (m, q)
  | fuel + 1, m, q => if m % 2 = 0 then reduce fuel (m / 2) (q + 1) else (m, q)

/-- The number `m * 2 ^ q` with a sign, in the one form that has an odd mantissa. -/
def ofScaled (negative : Bool) (m : Nat) (q : Int) : Double :=
  if m = 0 then finite negative 0 0
  else
    let r := reduce m.log2 m q
    finite negative r.1 r.2

/-- Zero with a sign. -/
def zero (negative : Bool) : Double := finite negative 0 0

/-- The whole number nearest to a fraction, the even one of two. -/
def roundHalfEven (num den : Nat) : Nat :=
  let q := num / den
  let r := num % den
  if 2 * r < den then q else if den < 2 * r then q + 1 else q + q % 2

/-- A power of two as a fraction. -/
def twoPow (q : Int) : Nat × Nat :=
  if 0 ≤ q then (Nat.pow 2 q.toNat, 1) else (1, Nat.pow 2 (-q).toNat)

/-- A power of ten as a fraction. -/
def tenPow (p : Int) : Nat × Nat :=
  if 0 ≤ p then (Nat.pow 10 p.toNat, 1) else (1, Nat.pow 10 (-p).toNat)

/-- The greatest `e` with `2 ^ e ≤ num / den`, of a positive fraction. -/
def floorLog2 (num den : Nat) : Int :=
  let e : Int := (num.log2 : Int) - den.log2
  let (n, d) := twoPow e
  if den * n ≤ num * d then e else e - 1

/-- The exponent of the last place of a number that lies between `2 ^ e` and its double. -/
def lastPlace (e : Int) : Int := max (e - 52) (-1074)

/-- The value nearest to `num / den`, the one with the even significand of two; past the greatest
finite value, an infinity. -/
def round (negative : Bool) (num den : Nat) : Double :=
  if num = 0 then zero negative
  else
    let u := lastPlace (floorLog2 num den)
    let (n, d) := twoPow u
    let m := roundHalfEven (num * d) (den * n)
    if m ≠ 0 ∧ 1024 ≤ (m.log2 : Int) + u then infinite negative else ofScaled negative m u

/-- The value nearest to `coefficient * 10 ^ exponent`. Beyond 400 places the answer is known
without the power: an infinity or zero. -/
def ofDecimal (negative : Bool) (coefficient : Nat) (exponent : Int) : Double :=
  if coefficient = 0 then zero negative
  else if 400 < exponent then infinite negative
  else if exponent < -400 - coefficient.log2 then zero negative
  else
    let (n, d) := tenPow exponent
    round negative (coefficient * n) d

/-- The value nearest to a whole number. -/
def ofInt (n : Int) : Double := round (n < 0) n.natAbs 1

/-- The value nearest to the product of two finite values. -/
def mul? : Double → Double → Option Double
  | finite a m q, finite b n r =>
    let (num, den) := twoPow (q + r)
    some (round (a != b) (m * n * num) den)
  | _, _ => none

/-- The value nearest to the quotient of two finite values, unless the divisor is zero. -/
def div? : Double → Double → Option Double
  | finite a m q, finite b n r =>
    if n = 0 then none
    else
      let (num, den) := twoPow (q - r)
      some (round (a != b) (m * num) (n * den))
  | _, _ => none

/-- Whether the value is a finite number. -/
def isFinite : Double → Bool
  | finite .. => true
  | _ => false

/-- Whether two values compare as equal: the zeros do, and nothing equals what is not a number. -/
def same : Double → Double → Bool
  | finite a m q, finite b n r => m == n && q == r && (a == b || m == 0)
  | infinite a, infinite b => a == b
  | _, _ => false

/-- Whether the value is a number below zero. -/
def isNegative : Double → Bool
  | finite negative m _ => negative && m != 0
  | infinite negative => negative
  | nan => false

/-- Whether the value is a number not above zero. -/
def isNonpositive : Double → Bool
  | finite negative m _ => negative || m == 0
  | infinite negative => negative
  | nan => false

/-- The whole number that a finite value is. -/
def toInt? : Double → Option Int
  | finite negative m q =>
    if 0 ≤ q then
      let n : Int := (m * Nat.pow 2 q.toNat : Nat)
      some (if negative then -n else n)
    else none
  | _ => none

/-- The fraction that a finite value is. -/
def toFraction? : Double → Option (Int × Nat)
  | finite negative m q =>
    let (n, d) := twoPow q
    let k : Int := m * n
    some (if negative then -k else k, d)
  | _ => none

/-- The least whole number of 64 bits with sign, `-2 ^ 63`. -/
def minInt64 : Int := -9223372036854775808

/-- The greatest whole number of 64 bits with sign, `2 ^ 63 - 1`. -/
def maxInt64 : Int := 9223372036854775807

/-- The whole number of 64 bits with sign that is nearest to `n`. -/
def clampInt64 (n : Int) : Int := max minInt64 (min n maxInt64)

/-- The greatest whole number not above the value, kept within 64 bits. -/
def floorInt64 : Double → Int
  | infinite negative => if negative then minInt64 else maxInt64
  | x => ((toFraction? x).map fun (n, d) ↦ clampInt64 (n.fdiv d)).getD 0

/-- The least whole number not below the value, kept within 64 bits. -/
def ceilInt64 : Double → Int
  | infinite negative => if negative then minInt64 else maxInt64
  | x => ((toFraction? x).map fun (n, d) ↦ clampInt64 (-(-n).fdiv d)).getD 0

end Double
end FilterPipeline
