import FilterPipeline.Compile.Projection

/-!
# Filters as queries

The match stage is a query document. Conditions on paths are tests of those paths; whatever a test
cannot say is an aggregation expression under `$expr`. Materialized list variables and negated named
blocks are referred to by the names that the projection computes them under.
-/

namespace FilterPipeline

open Fragment

namespace Generator

variable (g : Generator)

/-- A regular expression as a test. -/
def regexTest (pattern : String) : Json :=
  .obj [("$options", .str g.regexOptions), ("$regex", .str pattern)]

/-- A field of some type compared with a literal; nothing where the literal does not suit the
operator, or the operator asks about elements. -/
def compareQuery (field : String) (op : Operator) (v : Json) (type : Option FieldType) :
    Option Json :=
  let test (t : Json) : Option Json := some (.single field t)
  let boolean := type == some .boolean || v.bool?.isSome
  match op with
  | .compare .eq =>
    if boolean then test (.single "$in" (.arr [v.coerceFor type]))
    else test (.single "$eq" (v.coerceFor type))
  | .compare .ne =>
    if boolean then test (.single "$nin" (.arr [v.coerceFor type]))
    else test (.single "$ne" (v.coerceFor type))
  | .compare c => test (.single c.key (v.coerceFor type))
  | .oneOf => test (.single "$in" v.wrapList)
  | .noneOf => test (.single "$nin" v.wrapList)
  | .regex => test (g.regexTest v.regexText)
  | .contains => test (g.regexTest (v.literalPattern false false))
  | .startsWith => test (g.regexTest (v.literalPattern true false))
  | .endsWith => test (g.regexTest (v.literalPattern false true))
  | .present => test (.single "$exists" (.bool !v.isFalse))
  | .isNumber => some (exprQuery (.single "$isNumber" (.str ("$" ++ field))))
  | .between => do
    let (low, high) ← v.rangeBounds?
    test (.obj [("$gte", low), ("$lte", high)])
  | .notBetween => do
    let (low, high) ← v.rangeBounds?
    some (.single "$or"
      (.arr [.single field (.single "$lt" low), .single field (.single "$gt" high)]))
  | .longerThan => do
    let n ← v.number?
    if n.isNegative then some (exprQuery (.bool true))
    else some (.single (field ++ "." ++ toString n.floorInt64) (.single "$exists" (.bool true)))
  | .shorterThan => do
    let n ← v.number?
    if n.isNonpositive then some (exprQuery (.bool false))
    else
      some (.single (field ++ "." ++ toString (n.ceilInt64 - 1)) (.single "$exists" (.bool false)))
  | .list _ => none

/-- A condition on a path, given the compiled element predicate of its operand. -/
def baseQuery (field : String) (op : Operator) (operand : Operand) (element : Option Json) :
    Option Json :=
  match operand, op with
  | .list d, _ =>
    (ListQuery.ofListCondition? d (some op) .document element).map (·.predicate.toQuery)
  | operand, .list l =>
    some (ListQuery.ofCondition field l operand .document element).predicate.toQuery
  | operand, op => do g.compareQuery field op (← operand.literal?) (g.resolver.fieldType? field)

/-- A condition on a list variable that has a field of its own. -/
def materializedQuery (c : Condition) (op : Operator) (name : String) (l : ListOperator) :
    Option Json := do
  let literal := c.operand.literal?.getD .null
  let fragment ← match l, op with
    | .filter, .longerThan | .filter, .shorterThan | .filter, .present =>
      g.compareQuery name op literal (some .array)
    | .filter, _ =>
      some (exprQuery (.single "$gt" (.arr [sizeOfArray (.str ("$" ++ name)), .int 0])))
    | _, op => g.compareQuery name op literal (some .number)
  some (if c.isNegated then negateQuery fragment else fragment)

/-- A condition, given the projection and the compiled element predicate of its operand. -/
def conditionQuery (p : Projection) (c : Condition) (element : Option Json) : Option Json := do
  let field ← c.fieldName?
  let op ← c.operator
  match g.resolver.classify field with
  | .list v l =>
    if p.lists.contains v.key then g.materializedQuery c op v.key l
    else (g.listReferenceExpr c op v).map exprQuery
  | .arithmetic _ =>
    let fragment ← match g.resolver.expand? g.readFormula field with
      | some t => do
        let e ← g.compareExpr (t.render .document) op (← c.operand.literal?) (some .number)
        some (exprQuery e)
      | none => g.baseQuery field op c.operand element
    some (if c.isNegated then negateQuery fragment else fragment)
  | .base =>
    let fragment ← g.baseQuery field op c.operand element
    some (if c.isNegated then negateQuery fragment else fragment)

mutual

/-- A block; a negated named one refers to what the projection computes for an equal block. -/
def blockQuery (p : Projection) : Block → Option Json
  | b@⟨_, logic, children, _, _⟩ =>
    if b.isNegatedNamed then
      (p.blocks.find? (·.2.same b)).map fun (name, _) ↦ .single name (.bool false)
    else logic.combine (nodeQueries p children)

/-- The nodes that contribute something. -/
def nodeQueries (p : Projection) : List Node → List Json
  | [] => []
  | .block b :: rest =>
    match blockQuery p b with
    | some q => q :: nodeQueries p rest
    | none => nodeQueries p rest
  | .condition c :: rest =>
    let element :=
      if g.resolver.entersOperand c then
        g.elementExpr .document (c.fieldName?.getD "") c.operand
      else none
    match g.conditionQuery p c element with
    | some q => q :: nodeQueries p rest
    | none => nodeQueries p rest

end

/-- A condition among nodes is compiled with the element predicate of its operand. -/
theorem nodeQueries_condition (p : Projection) (c : Condition) (rest : List Node) :
    g.nodeQueries p (.condition c :: rest) =
      (g.conditionQuery p c (g.operandExpr .document c)).toList ++ g.nodeQueries p rest := by
  simp only [nodeQueries, operandExpr]
  split <;> next h => simp [h]

/-- A block among nodes contributes what it is compiled to. -/
theorem nodeQueries_block (p : Projection) (b : Block) (rest : List Node) :
    g.nodeQueries p (.block b :: rest) = (g.blockQuery p b).toList ++ g.nodeQueries p rest := by
  simp only [nodeQueries]
  split <;> next h => simp [h]

/-- What nodes contribute behind others comes behind what those do. -/
theorem nodeQueries_append (p : Projection) (nodes rest : List Node) :
    g.nodeQueries p (nodes ++ rest) = g.nodeQueries p nodes ++ g.nodeQueries p rest := by
  induction nodes with
  | nil => rfl
  | cons n nodes ih =>
    cases n with
    | block b => rw [List.cons_append, nodeQueries_block, nodeQueries_block, ih, List.append_assoc]
    | condition c =>
      rw [List.cons_append, nodeQueries_condition, nodeQueries_condition, ih, List.append_assoc]

/-- A block that is no negated named one combines its nodes. -/
theorem blockQuery_of_plain (p : Projection) {b : Block} (h : b.isNegatedNamed = false) :
    g.blockQuery p b = b.logic.combine (g.nodeQueries p b.children) := by
  cases b
  rw [blockQuery, if_neg (by simp [h])]

/-- A negated named block refers to what the projection computes for an equal block. -/
theorem blockQuery_of_negated (p : Projection) {b : Block} (h : b.isNegatedNamed = true) :
    g.blockQuery p b = (p.blocks.find? (·.2.same b)).map fun n ↦ .single n.1 (.bool false) := by
  cases b
  rw [blockQuery, if_pos h]

end Generator
end FilterPipeline
