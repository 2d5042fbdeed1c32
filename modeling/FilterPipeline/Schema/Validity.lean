import FilterPipeline.Fault
import FilterPipeline.Schema.Basic

/-!
# Valid schemas

The root of a schema is a record, every field has a name, and every type says what it has to say.
The first fault from left to right is reported, with the name of the field that it lies in.
-/

namespace FilterPipeline

mutual

/-- The first fault of a field. -/
def SchemaField.fault? : SchemaField → Option SchemaFault
  | ⟨name, type, _⟩ =>
    if Text.allBlank name.toList then some .unnamedField else SchemaType.fault? name type

/-- The first fault of several fields. -/
def SchemaField.firstFault? : List SchemaField → Option SchemaFault
  | [] => none
  | f :: rest => (SchemaField.fault? f).or (SchemaField.firstFault? rest)

/-- The first fault of a type in the field with a name. -/
def SchemaType.fault? (owner : String) : SchemaType → Option SchemaFault
  | .named name => if Text.allBlank name.toList then some (.emptyTypeName owner) else none
  | .union branches =>
    if branches.isEmpty then some (.emptyUnion owner) else SchemaType.branchFault? owner branches
  | .node ⟨kind, _, fields, items⟩ =>
    if kind = "record" then
      match fields with
      | some fields => SchemaField.firstFault? fields
      | none => some (.recordWithoutFields owner)
    else if kind = "array" then
      match items with
      | some items => SchemaType.fault? owner items
      | none => some (.arrayWithoutItems owner)
    else if kind = "" then some (.missingType owner)
    else none

/-- The first fault of the branches of a union. -/
def SchemaType.branchFault? (owner : String) : List SchemaType → Option SchemaFault
  | [] => none
  | b :: rest =>
    if b.isUnion then some (.nestedUnion owner)
    else (SchemaType.fault? owner b).or (SchemaType.branchFault? owner rest)

end

/-- The first fault of a schema. -/
def Schema.fault? (s : Schema) : Option SchemaFault :=
  if s.kind = "record" then SchemaField.firstFault? s.fields else some (.rootNotRecord s.kind)

/-- Accepts a schema without fault. -/
def Schema.validate (s : Schema) : Except Fault Unit :=
  match s.fault? with
  | none => .ok ()
  | some fault => .error (.schema fault)

end FilterPipeline
