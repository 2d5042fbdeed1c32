import FilterPipeline.Filter.Tree
import FilterPipeline.Json.Record
import FilterPipeline.Json.Reader

/-!
# Reading filters from JSON

A filter arrives while it is being edited, so its reading is lenient where the editor may leave
something open. One value can stand in several places of a filter; `Reading` collects what it means
in each of them, and is built up from the innermost values.
-/

namespace FilterPipeline

open Json (Layer fieldOr)

/-- What a JSON value means in the places of a filter where it may stand. -/
structure Reading where
  /-- The value itself. -/
  value : Json
  /-- As the list condition of an operand. -/
  listCondition : Option ListCondition
  /-- As a block that stands by itself: a root, or the operand of a condition. -/
  block : Option Block
  /-- As a child of a block. -/
  node : Option Node
  /-- As the children of a block. -/
  nodes : Option (List Node)

namespace Reading

/-- What a value means as an operand: the first of a list condition, a block and a literal that it
can be. -/
def operand (r : Reading) : Operand :=
  match r.listCondition, r.block with
  | some d, _ => .list d
  | none, some b => .nested b
  | none, none => .literal r.value.canonical

/-- A required string. -/
def string? (r : Reading) : Option String := r.value.string?

/-- A string or null. -/
def nullableString? (r : Reading) : Option (Option String) :=
  if r.value.isNull then some none else r.string?.map some

/-- A truth value or null. -/
def nullableBool? (r : Reading) : Option (Option Bool) :=
  if r.value.isNull then some none else r.value.bool?.map some

/-- An operator; a value that spells none means that none has been chosen. -/
def operator (r : Reading) : Option Operator := r.string?.bind Operator.parse?

end Reading

/-- The logic that a name stands for. -/
def Logic.ofName? : String → Option Logic
  | "And" | "AND" | "and" => some .and
  | "Or" | "OR" | "or" => some .or
  | _ => none

/-- The logic that a value means: its name, or an object with the name as its only key and nothing
to tell about it. An empty object tells nothing where `emptyTellsNothing`. -/
def Logic.ofJson? (emptyTellsNothing : Bool) : Json → Option Logic
  | .str name => Logic.ofName? name
  | .obj [(name, .null)] => Logic.ofName? name
  | .obj [(name, .obj [])] => if emptyTellsNothing then Logic.ofName? name else none
  | _ => none

/-- The names of the fields of a block, in order. -/
def blockFields : List (List String) :=
  [["id"], ["logic"], ["children"], ["customBlockName", "name"], ["isTrue"]]

/-- The names of the fields of a condition, in order. -/
def conditionFields : List (List String) :=
  [["id"], ["field"], ["operator"], ["value"], ["booleanSwitch"]]

/-- The names of the fields of a list condition, in order. -/
def listConditionFields : List (List String) :=
  [["type"], ["field"], ["operator"], ["subField"], ["value"], ["comparison", "comparisonOperator"],
    ["comparisonValue"], ["booleanSwitch"]]

/-- The block that a record means. Only its children are required. -/
def Block.ofRecord? (isChild : Bool) (record : Layer Reading) : Option Block := do
  match ← record.fields? blockFields with
  | [id, logic, children, name, mustHold] =>
    some {
      id := ← fieldOr "" Reading.string? id
      logic := ← fieldOr .and (fun r ↦ Logic.ofJson? isChild r.value) logic
      children := ← (← children).nodes
      name := ← fieldOr none Reading.nullableString? name
      mustHold := ← fieldOr true (fun r ↦ r.value.bool?) mustHold }
  | _ => none

/-- The condition that a record means. Nothing of it is required. -/
def Condition.ofRecord? (record : Layer Reading) : Option Condition := do
  match ← record.fields? conditionFields with
  | [id, field, operator, operand, switch] =>
    some {
      id := ← fieldOr "" Reading.string? id
      field := ← fieldOr none Reading.nullableString? field
      operator := operator.bind Reading.operator
      operand := operand.elim (.literal .null) Reading.operand
      switch := ← fieldOr none Reading.nullableBool? switch }
  | _ => none

/-- Whether a value is the tag of list conditions. -/
def isArrayTag : Json → Bool
  | .str s => s == "array"
  | .obj [(key, .null)] => key == "array"
  | _ => false

/-- The list condition that a record means. Its tag and its array are required. -/
def ListCondition.ofRecord? (record : Layer Reading) : Option ListCondition := do
  match ← record.fields? listConditionFields with
  | [tag, field, operator, subField, operand, comparison, comparisonValue, switch] =>
    if isArrayTag (← tag).value then
      some {
        field := ← (← field).string?
        operator := operator.bind Reading.operator
        subField := ← fieldOr none Reading.nullableString? subField
        operand := operand.elim (.literal .null) Reading.operand
        comparison := comparison.bind Reading.operator
        comparisonValue := comparisonValue.bind fun r ↦
          if r.value.isNull then none else some r.value.canonical
        switch := ← fieldOr none Reading.nullableBool? switch }
    else none
  | _ => none

/-- The two kinds of nodes. -/
inductive NodeKind where
  | block
  | condition

/-- The kind of nodes that a value tells, by name or by number. -/
def NodeKind.ofJson? : Json → Option NodeKind
  | .str "block" => some .block
  | .str "condition" => some .condition
  | .int 0 => some .block
  | .int 1 => some .condition
  | _ => none

/-- The node that a record means whose member `category`, or whose first item, tells the kind. -/
def Node.ofLayer? (record : Layer Reading) : Option Node := do
  let (kind, record) ← match record with
    | .scalar _ | .items [] => none
    | .items (kind :: parts) => some (kind, Layer.items parts)
    | .members parts => do
      let kind ← ← Json.uniqueMember? ["category"] parts
      some (kind, Layer.members (parts.filter (·.1 != "category")))
  match ← NodeKind.ofJson? kind.value with
  | .block => (Block.ofRecord? true record).map .block
  | .condition => (Condition.ofRecord? record).map .condition

/-- What a layer means, given what its parts mean. -/
def Reading.ofLayer (record : Layer Reading) : Reading where
  value := match record with
    | .scalar v => v
    | .items parts => .arr (parts.map Reading.value)
    | .members parts => .obj (parts.map fun (key, r) ↦ (key, r.value))
  listCondition := ListCondition.ofRecord? record
  block := Block.ofRecord? false record
  node := Node.ofLayer? record
  nodes := record.items?.bind fun parts ↦ parts.mapM Reading.node

/-- What a value means in a filter. -/
def Reading.ofJson (v : Json) : Reading := v.fold Reading.ofLayer

/-- The operand that a value means. -/
def Operand.ofJson (v : Json) : Operand := (Reading.ofJson v).operand

/-- The condition that a value means as a record of its own. -/
def Condition.ofJson? (v : Json) : Option Condition :=
  match v with
  | .arr items => Condition.ofRecord? (.items (items.map Reading.ofJson))
  | .obj members =>
    Condition.ofRecord? (.members (members.map fun (key, v) ↦ (key, Reading.ofJson v)))
  | v => Condition.ofRecord? (.scalar v)

/-- The list condition that a value means. -/
def ListCondition.ofJson? (v : Json) : Option ListCondition := (Reading.ofJson v).listCondition

/-- The root blocks that a filter document means: a list of blocks, or else one block. -/
def Block.rootsOfJson? (v : Json) : Option (List Block) :=
  (v.items?.bind fun items ↦ items.mapM fun item ↦ (Reading.ofJson item).block) <|>
    (Reading.ofJson v).block.map ([·])

/-- The root blocks that the text of a filter document means. -/
def Block.rootsOfText? (text : String) : Option (List Block) := do
  Block.rootsOfJson? (← Json.ofText? text)

end FilterPipeline
