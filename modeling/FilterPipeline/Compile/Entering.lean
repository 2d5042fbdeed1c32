import FilterPipeline.Resolver

/-!
# Which element predicates are entered

Not every question about an array looks at single elements: an aggregate does not, and a condition
that is compared with a formula asks its operand for a literal only. An element predicate is
compiled where elements are looked at, and only there can the definition of a list variable lead
back to itself.
-/

namespace FilterPipeline

/-- Whether a list operator asks about single elements. -/
def ListOperator.entersElements : ListOperator → Bool
  | quantifier _ | filter => true
  | aggregate _ => false

/-- Whether writing out a list variable enters its element predicate. -/
def ListVariable.isEntered (v : ListVariable) : Bool :=
  v.operator?.any ListOperator.entersElements && v.condition.arrayPath?.isSome

/-- Whether a condition with an operator, on a path, enters the element predicate of its operand. A
list operator on the condition comes before that of a list condition. -/
def Operand.isEntered (op : Operator) : Operand → Bool
  | .list d =>
    d.arrayPath?.isSome && (op.list?.or d.listOperator?).any ListOperator.entersElements
  | _ => op.list?.any ListOperator.entersElements

/-- Whether writing out a condition enters the element predicate of its operand. -/
def Resolver.entersOperand (r : Resolver) (c : Condition) : Bool :=
  match c.fieldName?, c.operator with
  | some field, some op =>
    match r.classify field with
    | .list .. => false
    | .arithmetic v => v.formula?.isNone && c.operand.isEntered op
    | .base => c.operand.isEntered op
  | _, _ => false

end FilterPipeline
