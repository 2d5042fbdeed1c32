import FilterPipeline.Compile.Fragment
import FilterPipeline.Compile.Scope

/-!
# Questions about arrays

List conditions, list operators that stand directly on a condition, and list variables all ask about
the elements of an array. A `ListQuery` is such a question with everything looked up; its element
predicate is compiled already.
-/

namespace FilterPipeline

open Fragment

/-- A question about the elements of an array. -/
structure ListQuery where
  op : ListOperator
  /-- The path of the array in the schema. -/
  arrayPath : String
  /-- The reference to the array. -/
  reference : String
  subField : Option String
  /-- The predicate on an element, as an aggregation expression. -/
  element : Option Json
  /-- The literal that an element, or an aggregate, is compared with. -/
  scalar : Option Json
  comparison : Comparison
  comparisonValue : Option Json

/-- What is asked of an array, as a truth value. -/
inductive ListPredicate where
  | expr (e : Json)
  /-- No more than that the field at a path is an array. -/
  | isArray (path reference : String)

namespace ListQuery

/-- The question of a list condition. A list operator on the condition around it, `outer`, comes
before its own, and a comparison there stands in where it has none. There is no question without a
list operator or an array. -/
def ofListCondition? (d : ListCondition) (outer : Option Operator) (scope : Scope)
    (element : Option Json) : Option ListQuery := do
  let op ← (outer.bind Operator.list?).or d.listOperator?
  let field ← d.arrayPath?
  some {
    op
    arrayPath := scope.schemaPath field
    reference := scope.reference field
    subField := d.subFieldName?
    element
    scalar := d.operand.literal?
    comparison := ((d.comparison.or (outer.filter fun op ↦ op.comparison?.isSome)).bind
      Operator.comparison?).getD .eq
    comparisonValue := d.comparisonValue }

/-- The question of a condition whose own operator is a list operator. -/
def ofCondition (field : String) (op : ListOperator) (operand : Operand) (scope : Scope)
    (element : Option Json) : ListQuery where
  op
  arrayPath := scope.schemaPath field
  reference := scope.reference field
  subField := none
  element
  scalar := operand.literal?
  comparison := .eq
  comparisonValue := none

variable (q : ListQuery)

/-- What an aggregate is compared with. -/
def target? : Option Json :=
  (q.comparisonValue.filter (!·.isNull)).or (q.scalar.filter Json.isComparable)

/-- The predicate on an element: the compiled one, or else equality with the literal. -/
def elementPredicate? : Option Json :=
  q.element.or ((q.scalar.filter Json.isComparable).map fun v ↦
    .single "$eq" (.arr [.str "$$this", v]))

/-- The array to walk over. -/
def input : Json := arrayInput (.str q.reference)

/-- A quantifier over the elements, or over the array itself where there is no predicate. -/
def quantifierExpr : Json :=
  .single q.op.key <|
    match q.elementPredicate? with
    | some p => .single "$map" (.obj [("in", p), ("input", q.input)])
    | none => q.input

/-- The elements that satisfy the predicate. -/
def filterExpr? : Option Json :=
  q.elementPredicate?.map fun p ↦ .single "$filter" (.obj [("cond", p), ("input", q.input)])

/-- The elements that satisfy the predicate; all of them where there is none. -/
def filteredExpr : Json := q.filterExpr?.getD q.input

/-- The number that the elements are reduced to. -/
def aggregateExpr : Json :=
  .single q.op.key (.str (match q.subField with
    | some sub => q.reference ++ "." ++ sub
    | none => q.reference))

/-- An aggregate compared with its target; without one it has to be positive. -/
def aggregateComparison : Json :=
  match q.target? with
  | some target => .single q.comparison.key (.arr [q.aggregateExpr, target.coerceNumber])
  | none => .single "$gt" (.arr [q.aggregateExpr, .int 0])

/-- The question as a truth value. -/
def predicate : ListPredicate :=
  match q.op with
  | .quantifier _ => .expr q.quantifierExpr
  | .filter =>
    match q.filterExpr? with
    | some filtered => .expr (isNotEmpty filtered)
    | none => .isArray q.arrayPath q.reference
  | .aggregate _ => .expr q.aggregateComparison

end ListQuery

namespace ListPredicate

/-- As a query. -/
def toQuery : ListPredicate → Json
  | expr e => exprQuery e
  | isArray path _ => .single path (.obj [("$exists", .bool true), ("$type", .str "array")])

/-- As an aggregation expression. -/
def toExpr : ListPredicate → Json
  | expr e => e
  | isArray _ reference => .single "$isArray" (.str reference)

end ListPredicate
end FilterPipeline
