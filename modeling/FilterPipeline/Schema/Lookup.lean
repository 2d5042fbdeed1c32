import FilterPipeline.Schema.Basic
import FilterPipeline.Text.Splitting

/-!
# Looking up types

A path names a field by the names of the records it leads through, with dots between; it passes
through the items of arrays without saying so. References to named types are followed one step.
-/

namespace FilterPipeline

/-- The type that bears a name: among the types of the fields from left to right, each before those
within it. -/
def SchemaField.findNamed? (name : String) : List SchemaField → Option SchemaType
  | [] => none
  | f :: rest =>
    let t := f.type.nonNull
    let found := t.node?.bind fun n ↦
      if n.name = some name then some t
      else
        let inRecord := match _h : f.type.nonNull.recordFields? with
          | some fields => SchemaField.findNamed? name fields
          | none => none
        let inItems := match _hi : f.type.nonNull.arrayItems? with
          | none => none
          | some items =>
            items.nonNull.node?.bind fun item ↦
              if item.name = some name then some items.nonNull
              else
                match _hr : items.nonNull.recordFields? with
                | some fields => SchemaField.findNamed? name fields
                | none => none
        inRecord.or inItems
    found.or (SchemaField.findNamed? name rest)
termination_by fields => sizeOf fields
decreasing_by
  · have := SchemaType.sizeOf_recordFields_lt _h
    have := SchemaType.sizeOf_nonNull_le f.type
    have := f.sizeOf_type_lt
    simp only [List.cons.sizeOf_spec]
    omega
  · have := SchemaType.sizeOf_recordFields_lt _hr
    have := SchemaType.sizeOf_nonNull_le items
    have := SchemaType.sizeOf_arrayItems_lt _hi
    have := SchemaType.sizeOf_nonNull_le f.type
    have := f.sizeOf_type_lt
    simp only [List.cons.sizeOf_spec]
    omega
  · simp only [List.cons.sizeOf_spec]
    omega

namespace Schema

/-- The field of a record with a name; the first of several. -/
def fieldIn? (fields : List SchemaField) (name : String) : Option SchemaField :=
  fields.find? (·.name == name)

/-- The field of the root with a name. -/
def field? (s : Schema) (name : String) : Option SchemaField := fieldIn? s.fields name

/-- The type that bears a name anywhere in the schema. -/
def findNamed? (s : Schema) (name : String) : Option SchemaType :=
  SchemaField.findNamed? name s.fields

/-- What a type stands for: the branch of a union, and the definition of a named type. -/
def resolve (s : Schema) (t : SchemaType) : SchemaType :=
  match t.nonNull with
  | .named name =>
    if (FieldType.ofPrimitive? name).isSome then .named name
    else (s.findNamed? name).getD (.named name)
  | t => t

/-- The items of a type that is an array, resolved; any other type as it is. -/
def throughItems (s : Schema) (t : SchemaType) : SchemaType :=
  match t.arrayItems? with
  | some items => s.resolve items
  | none => t

/-- The declared type at the end of a path that begins at some fields. -/
def typeAlong? (s : Schema) : List SchemaField → List String → Option SchemaType
  | _, [] => none
  | fields, [name] => (fieldIn? fields name).map (·.type)
  | fields, name :: rest => do
    let f ← fieldIn? fields name
    s.typeAlong? (← (s.throughItems (s.resolve f.type)).recordFields?) rest

/-- The declared type at a path. -/
def typeAt? (s : Schema) (path : String) : Option SchemaType :=
  s.typeAlong? s.fields (Text.splitString '.' path)

/-- The field type of a resolved type; a record behind an array counts as an array. -/
def leafType? (throughArray : Bool) : SchemaType → Option FieldType
  | .named name => FieldType.ofPrimitive? name
  | .union _ => none
  | .node n =>
    if n.kind = "array" then some .array
    else if n.kind = "record" then some (if throughArray then .array else .object)
    else FieldType.ofPrimitive? n.kind

/-- The field type at the end of a path that begins at some fields, behind an array or not. -/
def fieldTypeAlong? (s : Schema) : List SchemaField → (throughArray : Bool) → List String →
    Option FieldType
  | _, _, [] => none
  | fields, throughArray, [name] => do
    leafType? throughArray (s.resolve (← fieldIn? fields name).type)
  | fields, throughArray, name :: rest => do
    let t := s.resolve (← fieldIn? fields name).type
    match t.arrayItems? with
    | some items => s.fieldTypeAlong? (← (s.resolve items).recordFields?) true rest
    | none => s.fieldTypeAlong? (← t.recordFields?) throughArray rest

/-- The field type at a path. -/
def fieldTypeAt? (s : Schema) (path : String) : Option FieldType :=
  s.fieldTypeAlong? s.fields false (Text.splitString '.' path)

end Schema
end FilterPipeline
