import FilterPipeline.Schema.Lookup

/-!
# Fields offered for completion

The editor offers the fields of a schema by their paths. Records are opened. An array of records
some of whose fields are unions, as catalogs of cross-matches are, offers each of those fields as an
array of its own; any other array is offered as a whole.
-/

namespace FilterPipeline

/-- A field that the editor offers. -/
structure FieldOption where
  label : String
  type : FieldType
  group : Option String
  /-- The type of an array's items, when they are no records. -/
  itemType : Option FieldType
  /-- The array that an entry stands for a part of. -/
  parentArray : Option String
  /-- Whether the fields of an array's elements are offered separately. -/
  isExpandable : Bool

namespace FieldOption

/-- An option with no more than its type and group. -/
def plain (label : String) (type : FieldType) (group : Option String) : FieldOption :=
  ⟨label, type, group, none, none, false⟩

/-- The group of the fields below a path. -/
def groupOf (parent : String) : String :=
  match Text.splitString '.' parent with
  | first :: _ => if first.isEmpty then "Simple" else first
  | [] => "Simple"

end FieldOption

/-- The path of a field below another one. -/
def joinPath (parent name : String) : String :=
  if parent.isEmpty then name else parent ++ "." ++ name

namespace Schema

/-- The options of an array whose items are resolved. -/
def arrayOptions (path name group : String) (items : SchemaType) : List FieldOption :=
  match items.recordFields? with
  | some fields =>
    if fields.any (·.type.isUnion) then
      fields.map fun f ↦
        { FieldOption.plain (path ++ "." ++ f.name) .array (some name) with
          parentArray := some path }
    else [{ FieldOption.plain path .array (some group) with isExpandable := true }]
  | none => [{ FieldOption.plain path .array (some group) with itemType := some items.simpleType }]

/-- The options of a field below a path. -/
def fieldOptions (s : Schema) (parent : String) (f : SchemaField) : List FieldOption :=
  let path := joinPath parent f.name
  let t := f.type.nonNull
  let group := FieldOption.groupOf parent
  match _h : f.type.nonNull.recordFields? with
  | some fields => fields.attach.flatMap fun ⟨g, _⟩ ↦ s.fieldOptions path g
  | none =>
    match t.arrayItems? with
    | some items => arrayOptions path f.name group (s.resolve items)
    | none => [.plain path t.simpleType (some group)]
termination_by sizeOf f
decreasing_by
  have := SchemaType.sizeOf_recordFields_lt _h
  have := SchemaType.sizeOf_nonNull_le f.type
  have := List.sizeOf_lt_of_mem ‹g ∈ fields›
  have := f.sizeOf_type_lt
  omega

/-- The options of a whole schema. -/
def options (s : Schema) : List FieldOption := s.fields.flatMap (s.fieldOptions "")

/-- The options of a field of an array's elements, below a path from the element. -/
def elementOptions (parent : String) (f : SchemaField) : List FieldOption :=
  let path := joinPath parent f.name
  let t := f.type.nonNull
  match _h : f.type.nonNull.recordFields? with
  | some fields => fields.attach.flatMap fun ⟨g, _⟩ ↦ elementOptions path g
  | none =>
    [{ FieldOption.plain path t.simpleType none with
      itemType := t.arrayItems?.map SchemaType.simpleType }]
termination_by sizeOf f
decreasing_by
  have := SchemaType.sizeOf_recordFields_lt _h
  have := SchemaType.sizeOf_nonNull_le f.type
  have := List.sizeOf_lt_of_mem ‹g ∈ fields›
  have := f.sizeOf_type_lt
  omega

/-- The options inside the elements of the array at a path, in the order of their labels. -/
def elementOptionsAt (s : Schema) (path : String) : List FieldOption :=
  let fields := do
    let items ← (← s.typeAt? path).nonNull.arrayItems?
    (s.resolve items).recordFields?
  ((fields.getD []).flatMap (elementOptions "")).mergeSort fun a b ↦ decide (a.label ≤ b.label)

end Schema
end FilterPipeline
