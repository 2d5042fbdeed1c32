/-!
# Sets of characters given by code point ranges

A character property of the Unicode standard is a sorted table of inclusive ranges, searched by
halving.
-/

namespace FilterPipeline.Text

/-- Inclusive ranges of code points, in increasing order. -/
abbrev Ranges := Array (UInt32 × UInt32)

/-- Whether a range among those with index from `low` to below `high` holds the code point; each
step halves the distance, so `fuel` steps search `2 ^ fuel` ranges. -/
def Ranges.search (ranges : Ranges) (point : UInt32) : (fuel low high : Nat) → Bool
  | 0, _, _ => false
  | fuel + 1, low, high =>
    if low < high then
      let mid := (low + high) / 2
      match ranges[mid]? with
      | none => false
      | some (first, last) =>
        if point < first then ranges.search point fuel low mid
        else if last < point then ranges.search point fuel (mid + 1) high
        else true
    else false

/-- Whether one of the ranges holds the character. -/
def Ranges.contains (ranges : Ranges) (c : Char) : Bool :=
  ranges.search c.val (ranges.size.log2 + 1) 0 ranges.size

end FilterPipeline.Text
