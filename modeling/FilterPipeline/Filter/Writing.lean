import FilterPipeline.Filter.Tree
import FilterPipeline.Json.Record

/-!
# Writing filters as JSON

Every part of a filter is written as a record with the keys in order. What has not been chosen is
left out.
-/

namespace FilterPipeline

open Json (optionalMember)

/-- The name of a logic. -/
def Logic.name : Logic → String
  | and => "And"
  | or => "Or"

/-- An operator as a value. -/
def Operator.toJson (op : Operator) : Json := .str op.key

mutual

/-- The members of a block, which tell its kind where it is a child. -/
def Block.members (kind : Members) : Block → Members
  | ⟨id, logic, children, name, mustHold⟩ =>
    kind ++ [("children", .arr (Node.toJsonAll children))] ++
      optionalMember "customBlockName" (name.map .str) ++
      [("id", .str id), ("isTrue", .bool mustHold), ("logic", .str logic.name)]

/-- Nodes as values. -/
def Node.toJsonAll : List Node → List Json
  | [] => []
  | n :: rest => Node.toJson n :: Node.toJsonAll rest

/-- A node as a value. -/
def Node.toJson : Node → Json
  | .block b => .obj (Block.members [("category", .str "block")] b)
  | .condition c => .obj (Condition.members [("category", .str "condition")] c)

/-- The members of a condition, which tell its kind where it is a child. -/
def Condition.members (kind : Members) : Condition → Members
  | ⟨id, field, operator, operand, switch⟩ =>
    optionalMember "booleanSwitch" (switch.map .bool) ++ kind ++
      optionalMember "field" (field.map .str) ++ [("id", .str id)] ++
      optionalMember "operator" (operator.map Operator.toJson) ++
      [("value", Operand.toJson operand)]

/-- An operand as a value. -/
def Operand.toJson : Operand → Json
  | .literal v => v
  | .nested b => .obj (Block.members [] b)
  | .list d => ListCondition.toJson d

/-- A list condition as a value. -/
def ListCondition.toJson : ListCondition → Json
  | ⟨field, operator, subField, operand, comparison, comparisonValue, switch⟩ =>
    .obj (optionalMember "booleanSwitch" (switch.map .bool) ++
      optionalMember "comparison" (comparison.map Operator.toJson) ++
      optionalMember "comparisonValue" comparisonValue ++ [("field", .str field)] ++
      optionalMember "operator" (operator.map Operator.toJson) ++
      optionalMember "subField" (subField.map .str) ++
      [("type", .str "array"), ("value", Operand.toJson operand)])

end

/-- A root block as a value. -/
def Block.toJson (b : Block) : Json := .obj (b.members [])

/-- A condition by itself as a value. -/
def Condition.toJson (c : Condition) : Json := .obj (c.members [])

end FilterPipeline
