import FilterPipeline.Formula.Basic
import FilterPipeline.Json.Basic
import FilterPipeline.Reference

/-!
# Formulas as aggregation expressions

Each node of a formula becomes the aggregation operator of the same meaning, and each field leaf a
reference, unless the caller has an expression for it.
-/

namespace FilterPipeline.Formula

/-- The aggregation expression of a formula. For a field leaf the expression that `leaf` gives is
taken, or else the reference to the field. -/
def renderWith (leaf : String → Option Json) (scope : FieldScope) : Formula → Json
  | number x => .ofDouble x
  | field path => (leaf path).getD (.str (scope.reference path))
  | binary op left right =>
    .single op.key (.arr [left.renderWith leaf scope, right.renderWith leaf scope])
  | call f arg => .single f.key (arg.renderWith leaf scope)
  | negate arg => .single "$multiply" (.arr [.int (-1), arg.renderWith leaf scope])

/-- The aggregation expression of a formula whose field leaves are all references. -/
def render (scope : FieldScope) (t : Formula) : Json := t.renderWith (fun _ ↦ none) scope

end FilterPipeline.Formula
