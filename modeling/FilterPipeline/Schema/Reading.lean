import FilterPipeline.Json.Reader
import FilterPipeline.Json.Record
import FilterPipeline.Schema.Validity

/-!
# Reading schemas from JSON

A type is a string, a list of types, or a record, whichever it can be first.
-/

namespace FilterPipeline

open Json (Layer fieldOr nullable)

/-- What a JSON value means in the places of a schema where it may stand. -/
structure SchemaReading where
  /-- The value itself. -/
  value : Json
  type : Option SchemaType
  /-- As the branches of a union. -/
  types : Option (List SchemaType)
  field : Option SchemaField
  /-- As the fields of a record. -/
  fields : Option (List SchemaField)

namespace SchemaReading

/-- A required string. -/
def string? (r : SchemaReading) : Option String := r.value.string?

/-- A part that may be null. -/
def nullable? {α : Type} (read? : SchemaReading → Option α) (r : SchemaReading) :
    Option (Option α) :=
  if r.value.isNull then some none else (read? r).map some

end SchemaReading

/-- The names of the fields of a type node, in order. -/
def schemaNodeFields : List (List String) := [["type"], ["name"], ["fields"], ["items"]]

/-- The names of the fields of a schema field, in order. -/
def schemaFieldFields : List (List String) := [["name"], ["type"], ["doc"]]

/-- The names of the fields of a schema, in order. -/
def schemaFields : List (List String) := [["type"], ["name"], ["fields"]]

/-- The type node that a record means. -/
def SchemaNode.ofRecord? (record : Layer SchemaReading) : Option SchemaNode := do
  match ← record.fields? schemaNodeFields with
  | [kind, name, fields, items] =>
    some {
      kind := ← (← kind).string?
      name := ← fieldOr none (SchemaReading.nullable? (·.string?)) name
      fields := ← fieldOr none (SchemaReading.nullable? (·.fields)) fields
      items := ← fieldOr none (SchemaReading.nullable? (·.type)) items }
  | _ => none

/-- The schema field that a record means. -/
def SchemaField.ofRecord? (record : Layer SchemaReading) : Option SchemaField := do
  match ← record.fields? schemaFieldFields with
  | [name, type, doc] =>
    some {
      name := ← (← name).string?
      type := ← (← type).type
      doc := ← fieldOr none (SchemaReading.nullable? (·.string?)) doc }
  | _ => none

/-- What a layer means, given what its parts mean. -/
def SchemaReading.ofLayer (record : Layer SchemaReading) : SchemaReading :=
  let value : Json := match record with
    | .scalar v => v
    | .items parts => .arr (parts.map SchemaReading.value)
    | .members parts => .obj (parts.map fun (key, r) ↦ (key, r.value))
  let types := record.items?.bind fun parts ↦ parts.mapM SchemaReading.type
  { value
    type := (value.string?.map .named).or
      ((types.map .union).or ((SchemaNode.ofRecord? record).map .node))
    types
    field := SchemaField.ofRecord? record
    fields := record.items?.bind fun parts ↦ parts.mapM SchemaReading.field }

/-- What a value means in a schema. -/
def SchemaReading.ofJson (v : Json) : SchemaReading := v.fold SchemaReading.ofLayer

/-- The schema that a value means; nothing of it is required. -/
def Schema.ofJson? (v : Json) : Option Schema := do
  match ← v.layer.fields? schemaFields with
  | [kind, name, fields] =>
    some {
      kind := ← fieldOr "record" Json.string? kind
      name := ← nullable Json.string? name
      fields := ← fieldOr [] (fun v ↦ (SchemaReading.ofJson v).fields) fields }
  | _ => none

/-- The part of a schema document that is looked at. -/
def Schema.shape : Shape :=
  .record [(["type"], .all), (["name"], .all),
    (["fields"], .list (.record (schemaFieldFields.map (·, .all))))]

/-- The schema that the text of a document means. -/
def Schema.ofText? (text : String) : Option Schema := do
  Schema.ofJson? (← Json.ofTextWithin? Schema.shape text)

/-- Accepts a document that means a schema without fault. -/
def Schema.load (read : Option Schema) : Except Fault Schema := do
  let s ← read.elim (.error .malformedDocument) .ok
  s.validate
  .ok s

end FilterPipeline
