import FilterPipeline.Number.Shortest

/-!
# Written numbers

Both number formats of the library write the fewest digits that read back as the same value. They
differ in when they turn to an exponent, and in whether a whole number keeps a fractional digit.
-/

namespace FilterPipeline.Double

/-- The decisions that a number format leaves open. -/
structure Format where
  /-- Whether a number is written without exponent, given the power of ten of its first digit. -/
  positional : Int → Bool
  /-- What is written after the digits of a whole number. -/
  wholeEnding : String
  /-- Which of two equally near shortest decimals is written. -/
  tie : Tie

/-- JSON text: an exponent below `1e-5` and from `1e16` on, and at least one fractional digit where
there is none. -/
def Format.json : Format := ⟨fun k ↦ -5 ≤ k && k ≤ 15, ".0", .toEven⟩

/-- Running text: never an exponent, and a whole number without a point. -/
def Format.plain : Format := ⟨fun _ ↦ true, "", .up⟩

/-- Digits whose last one counts a power of ten, written without exponent. -/
def writePositional (format : Format) (digits : List Char) (p : Int) : String :=
  if 0 ≤ p then
    String.ofList (digits ++ List.replicate p.toNat '0') ++ format.wholeEnding
  else
    let places := (-p).toNat
    let padded := List.replicate (places + 1 - digits.length) '0' ++ digits
    let whole := padded.length - places
    String.ofList (padded.take whole) ++ "." ++ String.ofList (padded.drop whole)

/-- Digits written with one of them before the point, and the power of ten of that one. -/
def writeScientific (digits : List Char) (k : Int) : String :=
  let mantissa := match digits with
    | first :: rest =>
      if rest.isEmpty then String.ofList [first] else String.ofList (first :: '.' :: rest)
    | [] => ""
  mantissa ++ (if 0 ≤ k then "e+" else "e-") ++ toString k.natAbs

/-- The text of a finite number without its sign. -/
def writeMagnitude (format : Format) (m : Nat) (q : Int) : String :=
  if m = 0 then "0" ++ format.wholeEnding
  else
    let (digits, p) := shortest format.tie m q
    let k := p + digits.length - 1
    if format.positional k then writePositional format digits p else writeScientific digits k

/-- The text of a value. -/
def write (format : Format) : Double → String
  | finite negative m q => (if negative then "-" else "") ++ writeMagnitude format m q
  | infinite negative => if negative then "-inf" else "inf"
  | nan => "NaN"

end FilterPipeline.Double
