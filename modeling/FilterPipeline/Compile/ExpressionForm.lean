import FilterPipeline.Compile.Entering
import FilterPipeline.Compile.ListQuery
import FilterPipeline.Formula.Aggregation

/-!
# Filters as aggregation expressions

Element predicates, negated named blocks and comparisons of formulas are aggregation expressions:
what they yield is a truth value that other expressions can use. A list variable is written out
wherever it is named. Its element predicate may name further list variables, and those are compiled
one level further down.
-/

namespace FilterPipeline

open Fragment

/-- What the compiler of a filter looks things up in. -/
structure Generator where
  resolver : Resolver
  /-- The options of regular expressions. -/
  regexOptions : String
  /-- Reads the formulas of variables. -/
  readFormula : String → Formula
  /-- The compiled element predicate of a list variable. -/
  definition : ListVariable → Option Json

/-- Whether a condition on a truth value asks for the value `false`. -/
def Condition.asksForFalse (c : Condition) (op : Operator) : Bool :=
  match c.operand.literal?, op with
  | some v, .compare .eq =>
    match v.coerceFor (some .boolean) with
    | .bool b => !b
    | _ => false
  | some v, .compare .ne =>
    match v.coerceFor (some .boolean) with
    | .bool b => b
    | _ => false
  | _, _ => false

namespace Generator

variable (g : Generator)

/-- A regular expression matched against an expression. -/
def regexExpr (input : Json) (pattern : String) : Json :=
  .single "$regexMatch"
    (.obj [("input", input), ("options", .str g.regexOptions), ("regex", .str pattern)])

/-- An expression of some type compared with a literal; nothing where the literal does not suit the
operator, or the operator asks about elements. -/
def compareExpr (lhs : Json) (op : Operator) (v : Json) (type : Option FieldType) : Option Json :=
  match op with
  | .compare c => some (.single c.key (.arr [lhs, v.coerceFor type]))
  | .oneOf => some (.single "$in" (.arr [lhs, v.wrapList]))
  | .noneOf => some (negateExpr (.single "$in" (.arr [lhs, v.wrapList])))
  | .regex => some (g.regexExpr lhs v.regexText)
  | .contains => some (g.regexExpr lhs (v.literalPattern false false))
  | .startsWith => some (g.regexExpr lhs (v.literalPattern true false))
  | .endsWith => some (g.regexExpr lhs (v.literalPattern false true))
  | .present =>
    some (.single (if v.isFalse then "$eq" else "$ne")
      (.arr [.single "$type" lhs, .str "missing"]))
  | .isNumber => some (.single "$isNumber" lhs)
  | .between => do
    let (low, high) ← v.rangeBounds?
    some (.single "$and"
      (.arr [.single "$gte" (.arr [lhs, low]), .single "$lte" (.arr [lhs, high])]))
  | .notBetween => do
    let (low, high) ← v.rangeBounds?
    some (.single "$or"
      (.arr [.single "$lt" (.arr [lhs, low]), .single "$gt" (.arr [lhs, high])]))
  | .longerThan => do
    let n ← v.number?
    some (if n.isNegative then .bool true
      else .single "$gt" (.arr [sizeOfArray lhs, .ofDouble n]))
  | .shorterThan => do
    let n ← v.number?
    some (if n.isNonpositive then .bool false
      else .single "$lt" (.arr [sizeOfArray lhs, .ofDouble n]))
  | .list _ => none

/-- A condition on an array that an expression yields: a test of its length or presence, and for any
other operator that it is not empty. -/
def arrayExpr (array : Json) (op : Operator) (v : Json) : Option Json :=
  match op with
  | .longerThan | .shorterThan | .present => g.compareExpr array op v (some .array)
  | _ => some (.single "$gt" (.arr [sizeOfArray array, .int 0]))

/-- The question that a list variable asks of the document. -/
def variableQuery? (v : ListVariable) : Option ListQuery :=
  ListQuery.ofListCondition? v.condition none .document
    (if v.isEntered then g.definition v else none)

/-- A condition on a list variable that is written out. -/
def listReferenceExpr (c : Condition) (op : Operator) (v : ListVariable) : Option Json := do
  let q ← g.variableQuery? v
  let literal := c.operand.literal?.getD .null
  match q.op with
  | .quantifier _ =>
    let e := if c.asksForFalse op then negateExpr q.quantifierExpr else q.quantifierExpr
    some (if (c.switch.or v.condition.switch).getD true then e else negateExpr e)
  | .aggregate _ =>
    let e ← g.compareExpr q.aggregateExpr op literal (some .number)
    some (if c.isNegated then negateExpr e else e)
  | .filter =>
    let e ← g.arrayExpr q.filteredExpr op literal
    some (if c.isNegated then negateExpr e else e)

/-- A formula in a scope. Aggregates that it names are written out, since the fields they are
computed under cannot be seen here. -/
def formulaExpr (scope : Scope) (t : Formula) : Json :=
  t.renderWith
    (fun leaf ↦
      match g.resolver.classify leaf with
      | .list v (.aggregate _) => (g.variableQuery? v).map ListQuery.aggregateExpr
      | _ => none)
    scope.fields

/-- A condition on a path, given the compiled element predicate of its operand. -/
def baseExpr (scope : Scope) (field : String) (op : Operator) (operand : Operand)
    (element : Option Json) : Option Json :=
  match operand, op with
  | .list d, _ => (ListQuery.ofListCondition? d (some op) scope element).map (·.predicate.toExpr)
  | operand, .list l => some (ListQuery.ofCondition field l operand scope element).predicate.toExpr
  | operand, op => do
    g.compareExpr (.str (scope.reference field)) op (← operand.literal?)
      (g.resolver.fieldType? (scope.schemaPath field))

/-- A condition, given the compiled element predicate of its operand. -/
def conditionExpr (scope : Scope) (c : Condition) (element : Option Json) : Option Json := do
  let field ← c.fieldName?
  let op ← c.operator
  match g.resolver.classify field with
  | .list v _ => g.listReferenceExpr c op v
  | .arithmetic _ =>
    let e ← match g.resolver.expand? g.readFormula field with
      | some t => do
        g.compareExpr (g.formulaExpr scope t) op (← c.operand.literal?) (some .number)
      | none => g.baseExpr scope field op c.operand element
    some (if c.isNegated then negateExpr e else e)
  | .base =>
    let e ← g.baseExpr scope field op c.operand element
    some (if c.isNegated then negateExpr e else e)

mutual

/-- A block, negated where it is a named one that must not hold. -/
def blockExpr (scope : Scope) : Block → Option Json
  | b@⟨_, logic, children, _, _⟩ =>
    (logic.combine (nodeExprs scope children)).map fun e ↦
      if b.isNegatedNamed then negateExpr e else e

/-- The nodes that contribute something. -/
def nodeExprs (scope : Scope) : List Node → List Json
  | [] => []
  | n :: rest =>
    match nodeExpr scope n with
    | some e => e :: nodeExprs scope rest
    | none => nodeExprs scope rest

/-- A node. -/
def nodeExpr (scope : Scope) : Node → Option Json
  | .block b => blockExpr scope b
  | .condition c@⟨_, _, _, operand, _⟩ =>
    g.conditionExpr scope c
      (if g.resolver.entersOperand c then elementExpr scope (c.fieldName?.getD "") operand
      else none)

/-- The element predicate of the operand of a condition on a field. -/
def elementExpr (scope : Scope) (field : String) : Operand → Option Json
  | .literal _ => none
  | .nested b => blockExpr (.element (scope.schemaPath field)) b
  | .list ⟨array, _, _, operand, _, _, _⟩ =>
    match operand with
    | .nested b => blockExpr (.element (scope.schemaPath (Text.trimmed array))) b
    | _ => none

end

/-- The compiled element predicate of the operand of a condition, where one is entered. -/
def operandExpr (scope : Scope) (c : Condition) : Option Json :=
  if g.resolver.entersOperand c then g.elementExpr scope (c.fieldName?.getD "") c.operand else none

/-- A condition is compiled with the element predicate of its operand. -/
theorem nodeExpr_condition (scope : Scope) (c : Condition) :
    g.nodeExpr scope (.condition c) = g.conditionExpr scope c (g.operandExpr scope c) := by
  cases c
  simp only [nodeExpr, operandExpr]

/-- What nodes contribute is what each of them does, in order. -/
theorem nodeExprs_cons (scope : Scope) (n : Node) (rest : List Node) :
    g.nodeExprs scope (n :: rest) = (g.nodeExpr scope n).toList ++ g.nodeExprs scope rest := by
  simp only [nodeExprs]
  split <;> next h => simp [h]

/-- What nodes contribute behind others comes behind what those do. -/
theorem nodeExprs_append (scope : Scope) (nodes rest : List Node) :
    g.nodeExprs scope (nodes ++ rest) = g.nodeExprs scope nodes ++ g.nodeExprs scope rest := by
  induction nodes with
  | nil => rfl
  | cons n nodes ih =>
    rw [List.cons_append, nodeExprs_cons, nodeExprs_cons, ih, List.append_assoc]

/-- The children of a block, whether the block must hold or not. -/
def childrenExpr (scope : Scope) (b : Block) : Option Json :=
  b.logic.combine (g.nodeExprs scope b.children)

/-- A block is compiled as its children are, and negated where it must not hold. -/
theorem blockExpr_eq (scope : Scope) (b : Block) :
    g.blockExpr scope b = (g.childrenExpr scope b).map fun e ↦
      if b.isNegatedNamed then negateExpr e else e := by
  cases b
  rw [blockExpr, childrenExpr]

/-- The element predicate of a list variable, with the list variables it names written out at most
`levels` deep. -/
def definitionAt : (levels : Nat) → ListVariable → Option Json
  | 0, _ => none
  | levels + 1, v =>
    { g with definition := definitionAt levels }.elementExpr .document "" (.list v.condition)

/-- The generator that writes list variables out at most `levels` deep. -/
def withLevels (levels : Nat) : Generator := { g with definition := g.definitionAt levels }

end Generator
end FilterPipeline
