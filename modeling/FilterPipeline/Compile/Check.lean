import FilterPipeline.Compile.Pipeline

/-!
# Well-formed pipelines

Before a pipeline is run, its shape is checked: the stages, the operands of the operators that need
a certain kind, and that nothing is empty. The first issue is reported with its place.
-/

namespace FilterPipeline

/-- What can be wrong with the shape of a pipeline. -/
inductive Issue where
  | notAnArray
  | noStages
  | malformedStage (index : Nat)
  | emptyStage (index : Nat) (stage : String)
  | nullStage (index : Nat) (stage : String)
  | emptyObject (path : String)
  | emptyKey (path : String)
  | expectedArray (operator path : String)
  | invalidSize (path : String)
  | incomparableOperands (operator path : String)
deriving DecidableEq, Repr

/-- The text of an issue. -/
def Issue.message : Issue → String
  | notAnArray => "pipeline must be an array of stages"
  | noStages => "pipeline has no stages"
  | malformedStage index => "stage " ++ toString index ++ " must be an object with exactly one key"
  | emptyStage index stage => "stage " ++ toString index ++ " (" ++ stage ++ ") is empty"
  | nullStage index stage => "stage " ++ toString index ++ " (" ++ stage ++ ") is null"
  | emptyObject path => "empty object at " ++ path
  | emptyKey path => "empty key at " ++ path
  | expectedArray operator path => operator ++ " at " ++ path ++ " needs an array operand"
  | invalidSize path => "$size at " ++ path ++ " must be a non-negative integer"
  | incomparableOperands operator path =>
    operator ++ " at " ++ path ++ " has no number or string operand"

namespace Issue

/-- Whether a value may be the size of an array: an integer that is not negative, a reference, or
anything that is computed. -/
def isSize : Json → Bool
  | .int n => 0 ≤ n
  | .str s => s.toList.head? == some '$'
  | .obj _ | .arr _ => true
  | _ => false

/-- The issue of an operator with its operand. -/
def ofOperator? (key : String) (operand : Json) (path : String) : Option Issue :=
  if key == "$in" || key == "$nin" then
    if operand.items?.isSome then none else some (.expectedArray key path)
  else if key == "$size" then
    if isSize operand then none else some (.invalidSize path)
  else if key == "$gt" || key == "$gte" || key == "$lt" || key == "$lte" then
    match operand with
    | .arr items =>
      if items.any fun v ↦ v.isNumber || v.isString then none
      else some (.incomparableOperands key path)
    | _ => none
  else none

mutual

/-- The first issue within a value. -/
def ofValue? (path : String) : Json → Option Issue
  | .obj members => if members.isEmpty then some (.emptyObject path) else ofMembers? path members
  | .arr items => ofItems? path 0 items
  | _ => none

/-- The first issue within members. -/
def ofMembers? (path : String) : List (String × Json) → Option Issue
  | [] => none
  | (key, operand) :: rest =>
    if key.isEmpty then some (.emptyKey path)
    else
      let child := path ++ "." ++ key
      ((ofOperator? key operand child).or (ofValue? child operand)).or (ofMembers? path rest)

/-- The first issue within items, the first of which has an index. -/
def ofItems? (path : String) (index : Nat) : List Json → Option Issue
  | [] => none
  | v :: rest =>
    (ofValue? (path ++ "[" ++ toString index ++ "]") v).or (ofItems? path (index + 1) rest)

end

/-- Stages besides projection and match whose body must not be empty. -/
def bodiedStages : List String :=
  ["$group", "$sort", "$limit", "$skip", "$lookup", "$unwind", "$addFields"]

/-- Whether the body of a stage says nothing. -/
def isEmptyBody : Json → Bool
  | .null => true
  | .obj members => members.isEmpty
  | .arr items => items.isEmpty
  | .str s => s.isEmpty
  | _ => false

/-- The first issue of a stage. -/
def ofStage? (index : Nat) : Json → Option Issue
  | .obj [(name, body)] =>
    if name == "$match" || name == "$project" then
      match body with
      | .obj (_ :: _) => ofValue? name body
      | _ => some (.emptyStage index name)
    else if bodiedStages.contains name then
      if isEmptyBody body then some (.emptyStage index name) else none
    else if body.isNull then some (.nullStage index name)
    else none
  | _ => some (.malformedStage index)

/-- The first issue of stages, the first of which has an index. -/
def ofStages? (index : Nat) : List Json → Option Issue
  | [] => none
  | stage :: rest => (ofStage? index stage).or (ofStages? (index + 1) rest)

/-- The first issue of a pipeline. -/
def ofPipeline? : Json → Option Issue
  | .arr [] => some .noStages
  | .arr stages => ofStages? 0 stages
  | _ => some .notAnArray

end Issue
end FilterPipeline
