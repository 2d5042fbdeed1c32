import FilterPipeline.Number.Double

/-!
# The shortest decimal of a binary64 value

The reals that round to a value form an interval. Of all decimals in it, `Double.shortest` gives one
with the fewest digits, and of those the one nearest to the value. A grid of decimals has a point in
the interval exactly when one of the value's two neighbours on the grid lies in it, so two
candidates per number of digits are enough.
-/

namespace FilterPipeline.Double

/-- Which of two decimals that are equally near is taken. -/
inductive Tie where
  | toEven
  | up
deriving DecidableEq

/-- A positive value and the ends of the interval of reals that round to it, as whole multiples of
the fraction `num / den`. -/
structure Interval where
  low : Nat
  value : Nat
  high : Nat
  num : Nat
  den : Nat
  /-- Whether the ends themselves round to the value. -/
  closed : Bool

/-- The least significand of full length, `2 ^ 52`: the one of a power of two. -/
def firstSignificand : Nat := 4503599627370496

/-- The interval of the reals that round to `m * 2 ^ q`. The lower half is half as wide where a
power of two begins a finer grid; the ends belong to it when the significand is even. -/
def interval (m : Nat) (q : Int) : Interval :=
  let u := lastPlace (m.log2 + q)
  let significand := m * Nat.pow 2 (q - u).toNat
  let (num, den) := twoPow (u - 2)
  let lowerHalf := if significand = firstSignificand ∧ -1074 < u then 1 else 2
  { low := 4 * significand - lowerHalf
    value := 4 * significand
    high := 4 * significand + 2
    num, den
    closed := significand % 2 == 0 }

/-- The nearest of the decimals `c * 10 ^ p` that lie in the interval. -/
def Interval.nearest? (i : Interval) (tie : Tie) (p : Int) : Option Nat :=
  let (n, d) := tenPow p
  let num := i.num * d
  let den := i.den * n
  let inside (c : Nat) : Bool :=
    if i.closed then i.low * num ≤ c * den && c * den ≤ i.high * num
    else i.low * num < c * den && c * den < i.high * num
  let c := i.value * num / den
  let below := i.value * num - c * den
  let above := (c + 1) * den - i.value * num
  match inside c, inside (c + 1) with
  | true, true =>
    let up := match tie with
      | .toEven => c % 2 == 1
      | .up => true
    some (if below < above then c else if above < below then c + 1 else if up then c + 1 else c)
  | true, false => some c
  | false, true => some (c + 1)
  | false, false => none

/-- The first decimal found with a number of digits from `17 - fuel` on, for a value whose first
digit stands at the power `first` of ten. -/
def Interval.search (i : Interval) (tie : Tie) (first : Int) : (fuel : Nat) → Nat × Int
  | 0 => (0, 0)
  | fuel + 1 =>
    let p := first - (17 - (fuel + 1 : Int))
    match i.nearest? tie p with
    | some c => (c, p)
    | none => i.search tie first fuel

/-- The greatest `k` with `10 ^ k ≤ num / den`, for a fraction not below `10 ^ -342`. -/
def floorLog10 (num den : Nat) : Int :=
  ((Nat.toDigits 10 (num * Nat.pow 10 342 / den)).length : Int) - 343

/-- The digits of `c` without zeros at the end, with the power of ten that the last one counts. -/
def dropZeros (c : Nat) (p : Int) : List Char × Int :=
  let digits := Nat.toDigits 10 c
  let zeros := (digits.reverse.takeWhile (· == '0')).length
  (digits.take (digits.length - zeros), p + zeros)

/-- The digits of the shortest decimal of `m * 2 ^ q`, and the power of ten that its last digit
counts. -/
def shortest (tie : Tie) (m : Nat) (q : Int) : List Char × Int :=
  let i := interval m q
  let (c, p) := i.search tie (floorLog10 (i.value * i.num) i.den) 17
  dropZeros c p

end FilterPipeline.Double
