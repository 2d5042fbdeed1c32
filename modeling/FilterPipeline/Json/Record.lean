import FilterPipeline.Json.Basic

/-!
# Records in JSON

A record is written as an object, or as a list that gives its fields in order. `Layer` is one layer
of a value with its parts already understood, so that what a value means is defined layer by layer
and `Json.fold` carries it through the whole value.
-/

namespace FilterPipeline.Json

/-- One layer of a value, whose parts have been taken to their meanings. -/
inductive Layer (α : Type) where
  | scalar (v : Json)
  | items (parts : List α)
  | members (parts : List (String × α))

variable {α β : Type}

mutual

/-- The meaning of a value, built up from the meanings of its parts. -/
def fold (meaning : Layer α → α) : Json → α
  | .arr items => meaning (.items (foldItems meaning items))
  | .obj members => meaning (.members (foldMembers meaning members))
  | v => meaning (.scalar v)

/-- The meanings of items. -/
def foldItems (meaning : Layer α → α) : List Json → List α
  | [] => []
  | v :: rest => fold meaning v :: foldItems meaning rest

/-- The meanings of the values of members. -/
def foldMembers (meaning : Layer α → α) : List (String × Json) → List (String × α)
  | [] => []
  | (key, v) :: rest => (key, fold meaning v) :: foldMembers meaning rest

end

/-- The outermost layer of a value, with its parts as they are. -/
def layer : Json → Layer Json
  | .arr items => .items items
  | .obj members => .members members
  | v => .scalar v

/-- The value of the one member that bears one of the names, if any; none at all if there are
several. -/
def uniqueMember? (names : List String) (parts : List (String × α)) : Option (Option α) :=
  match parts.filter (names.contains ·.1) with
  | [] => some none
  | [(_, v)] => some (some v)
  | _ => none

/-- The fields of a record, given the names of each: by name in an object, where a field must not
occur twice, and by place in a list, which must not be longer than the record. -/
def Layer.fields? (names : List (List String)) : Layer α → Option (List (Option α))
  | .scalar _ => none
  | .items parts =>
    if parts.length ≤ names.length then
      some (parts.map some ++ List.replicate (names.length - parts.length) none)
    else none
  | .members parts => names.mapM (uniqueMember? · parts)

/-- The items of a list. -/
def Layer.items? : Layer α → Option (List α)
  | .items parts => some parts
  | _ => none

/-- A field that may be left out. -/
def fieldOr (default : β) (read? : α → Option β) : Option α → Option β
  | none => some default
  | some part => read? part

/-- A field that may be left out or be null. -/
def nullable (read? : Json → Option β) : Option Json → Option (Option β)
  | none | some .null => some none
  | some part => (read? part).map some

/-- A member that is written when there is a value for it. -/
def optionalMember (key : String) : Option Json → Members
  | none => []
  | some v => [(key, v)]

end FilterPipeline.Json
