import FilterPipeline.Json.Record
import FilterPipeline.Schema.Completion

/-!
# Writing schemas as JSON

Records are written with the keys in order; what is missing is left out.
-/

namespace FilterPipeline

open Json (optionalMember)

/-- The name of a field type. -/
def FieldType.name : FieldType → String
  | number => "number"
  | string => "string"
  | boolean => "boolean"
  | array => "array"
  | object => "object"

/-- The field type with a name. -/
def FieldType.ofName? (name : String) : Option FieldType :=
  [number, string, boolean, array, object].find? (·.name == name)

/-- A field type as a value. -/
def FieldType.toJson (t : FieldType) : Json := .str t.name

mutual

/-- A type as a value. -/
def SchemaType.toJson : SchemaType → Json
  | .named name => .str name
  | .union branches => .arr (SchemaType.toJsonAll branches)
  | .node n => SchemaNode.toJson n

/-- Types as values. -/
def SchemaType.toJsonAll : List SchemaType → List Json
  | [] => []
  | t :: rest => SchemaType.toJson t :: SchemaType.toJsonAll rest

/-- A type node as a value. -/
def SchemaNode.toJson : SchemaNode → Json
  | ⟨kind, name, fields, items⟩ =>
    .obj ((match fields with
        | some fields => [("fields", .arr (SchemaField.toJsonAll fields))]
        | none => []) ++
      (match items with
        | some items => [("items", SchemaType.toJson items)]
        | none => []) ++
      optionalMember "name" (name.map .str) ++ [("type", .str kind)])

/-- A field as a value. -/
def SchemaField.toJson : SchemaField → Json
  | ⟨name, type, doc⟩ =>
    .obj (optionalMember "doc" (doc.map .str) ++
      [("name", .str name), ("type", SchemaType.toJson type)])

/-- Fields as values. -/
def SchemaField.toJsonAll : List SchemaField → List Json
  | [] => []
  | f :: rest => SchemaField.toJson f :: SchemaField.toJsonAll rest

end

/-- A schema as a value. -/
def Schema.toJson (s : Schema) : Json :=
  .obj ([("fields", .arr (SchemaField.toJsonAll s.fields))] ++
    optionalMember "name" (s.name.map .str) ++ [("type", .str s.kind)])

/-- An option of the editor as a value. -/
def FieldOption.toJson (o : FieldOption) : Json :=
  .obj (optionalMember "group" (o.group.map .str) ++
    (if o.isExpandable then [("isExpandableArray", .bool true)] else []) ++
    optionalMember "itemType" (o.itemType.map FieldType.toJson) ++ [("label", .str o.label)] ++
    optionalMember "parentArray" (o.parentArray.map .str) ++ [("type", o.type.toJson)])

end FilterPipeline
