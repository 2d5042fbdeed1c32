import FilterPipeline.Filter.Operator
import FilterPipeline.Json.Basic

/-!
# Filter trees

A filter is a tree of blocks that combine conditions. A condition's operand is a literal, a block
that is a predicate on array elements, or a list condition, which names an array of its own.
-/

namespace FilterPipeline

/-- How a block combines its children. -/
inductive Logic where
  | and
  | or
deriving DecidableEq, Repr, Inhabited

/-- The key of a combination in queries and expressions. -/
def Logic.key : Logic → String
  | and => "$and"
  | or => "$or"

mutual

/-- A group of nodes. -/
structure Block where
  id : String
  logic : Logic
  children : List Node
  /-- The name of a saved block. -/
  name : Option String
  /-- Whether a named block must hold or must not. -/
  mustHold : Bool

/-- A node of a filter tree. -/
inductive Node where
  | block (b : Block)
  | condition (c : Condition)

/-- A test of one field. What the user has not chosen yet is missing. -/
structure Condition where
  id : String
  field : Option String
  operator : Option Operator
  operand : Operand
  /-- `false` negates the condition. -/
  switch : Option Bool

/-- The right-hand side of a condition. -/
inductive Operand where
  | literal (v : Json)
  /-- A predicate on the elements of the condition's array. -/
  | nested (b : Block)
  | list (d : ListCondition)

/-- A test of the elements of an array, or of a number computed from them. -/
structure ListCondition where
  /-- The array. -/
  field : String
  operator : Option Operator
  /-- The field of each element that an aggregate runs over. -/
  subField : Option String
  operand : Operand
  /-- How an aggregate is compared. -/
  comparison : Option Operator
  /-- What an aggregate is compared with. -/
  comparisonValue : Option Json
  switch : Option Bool

end

/-- Every character of a name that is no ASCII letter or digit becomes an underscore. -/
def sanitizeName (name : String) : String :=
  String.ofList (name.toList.map fun c ↦ if c.isAlphanum then c else '_')

namespace Block

/-- Whether the block has a name that is not blank. -/
def isNamed (b : Block) : Bool := b.name.any fun n ↦ !Text.allBlank n.toList

/-- Whether the block is a named one that must not hold. -/
def isNegatedNamed (b : Block) : Bool := !b.mustHold && b.isNamed

/-- The field name that a named block is computed under. -/
def materializedName? (b : Block) : Option String :=
  if b.isNamed then b.name.map sanitizeName else none

end Block

namespace Condition

/-- The condition in which nothing has been chosen yet. -/
def empty : Condition := ⟨"", none, none, .literal .null, none⟩

/-- The chosen field, without blanks around it. -/
def fieldName? (c : Condition) : Option String := c.field.bind Text.trimmed?

/-- Whether field and operator have been chosen. -/
def isComplete (c : Condition) : Bool := c.fieldName?.isSome && c.operator.isSome

/-- Whether the switch negates the condition. -/
def isNegated (c : Condition) : Bool := c.switch == some false

end Condition

namespace Operand

/-- The literal that an operand is. -/
def literal? : Operand → Option Json
  | literal v => some v
  | _ => none

/-- The block that an operand is. -/
def nested? : Operand → Option Block
  | nested b => some b
  | _ => none

/-- The list condition that an operand is. -/
def list? : Operand → Option ListCondition
  | list d => some d
  | _ => none

end Operand

namespace ListCondition

/-- The field that an aggregate runs over, without blanks around it. -/
def subFieldName? (d : ListCondition) : Option String := d.subField.bind Text.trimmed?

/-- The array, without blanks around its path, when one is named. -/
def arrayPath? (d : ListCondition) : Option String := Text.trimmed? d.field

/-- The list operator that the condition itself names. -/
def listOperator? (d : ListCondition) : Option ListOperator := d.operator.bind Operator.list?

end ListCondition

mutual

/-- Whether two blocks are equal in every part; literals are compared as JSON values. -/
def Block.same : Block → Block → Bool
  | ⟨id, logic, children, name, mustHold⟩, ⟨id', logic', children', name', mustHold'⟩ =>
    id == id' && logic == logic' && Node.sameAll children children' && name == name' &&
      mustHold == mustHold'

/-- Whether two lists have equal nodes in equal places. -/
def Node.sameAll : List Node → List Node → Bool
  | [], [] => true
  | a :: as, b :: bs => Node.same a b && Node.sameAll as bs
  | _, _ => false

/-- Whether two nodes are equal. -/
def Node.same : Node → Node → Bool
  | .block a, .block b => Block.same a b
  | .condition a, .condition b => Condition.same a b
  | _, _ => false

/-- Whether two conditions are equal. -/
def Condition.same : Condition → Condition → Bool
  | ⟨id, field, operator, operand, switch⟩, ⟨id', field', operator', operand', switch'⟩ =>
    id == id' && field == field' && operator == operator' && Operand.same operand operand' &&
      switch == switch'

/-- Whether two operands are equal. -/
def Operand.same : Operand → Operand → Bool
  | .literal v, .literal w => v.same w
  | .nested a, .nested b => Block.same a b
  | .list a, .list b => ListCondition.same a b
  | _, _ => false

/-- Whether two list conditions are equal. -/
def ListCondition.same : ListCondition → ListCondition → Bool
  | ⟨field, operator, subField, operand, comparison, comparisonValue, switch⟩,
    ⟨field', operator', subField', operand', comparison', comparisonValue', switch'⟩ =>
    field == field' && operator == operator' && subField == subField' &&
      Operand.same operand operand' && comparison == comparison' &&
      (match comparisonValue, comparisonValue' with
        | none, none => true
        | some v, some w => v.same w
        | _, _ => false) &&
      switch == switch'

end

mutual

/-- A block and all nodes below it, element predicates included, each before what lies below it. -/
def Block.walk : Block → List Node
  | ⟨id, logic, children, name, mustHold⟩ =>
    .block ⟨id, logic, children, name, mustHold⟩ :: Node.walkAll children

/-- The walk over several nodes. -/
def Node.walkAll : List Node → List Node
  | [] => []
  | n :: rest => Node.walk n ++ Node.walkAll rest

/-- A node and all nodes below it. -/
def Node.walk : Node → List Node
  | .block b => Block.walk b
  | .condition ⟨id, field, operator, operand, switch⟩ =>
    .condition ⟨id, field, operator, operand, switch⟩ :: Operand.walk operand

/-- The walk over the element predicate of an operand. -/
def Operand.walk : Operand → List Node
  | .literal _ => []
  | .nested b => Block.walk b
  | .list ⟨_, _, _, operand, _, _, _⟩ =>
    match operand with
    | .nested b => Block.walk b
    | _ => []

end

end FilterPipeline
