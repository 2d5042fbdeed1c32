import FilterPipeline.Formula.Basic
import FilterPipeline.Number.Writing

/-!
# Displayed formulas

A formula is displayed with parentheses around every binary operation, so that reading it back needs
no precedence.
-/

namespace FilterPipeline.Formula

/-- The text of a formula. -/
def display : Formula → String
  | number x => x.write .plain
  | field path => path
  | binary op left right =>
    "(" ++ left.display ++ " " ++ op.symbol.toString ++ " " ++ right.display ++ ")"
  | call f arg => f.name ++ "(" ++ arg.display ++ ")"
  | negate arg => "-(" ++ arg.display ++ ")"

end FilterPipeline.Formula
