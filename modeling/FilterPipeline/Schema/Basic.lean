import FilterPipeline.Text.Blank

/-!
# Schemas

A schema describes the fields of the documents that a filter is about, in the manner of Avro: a
field has a primitive type, a union, a record, an array, or the name of a type that is defined
elsewhere in the schema.
-/

namespace FilterPipeline

/-- The type of a field as the editor sees it. -/
inductive FieldType where
  | number
  | string
  | boolean
  | array
  | object
deriving DecidableEq, Repr

/-- The field type of a primitive type's name. -/
def FieldType.ofPrimitive? : String → Option FieldType
  | "double" | "float" | "int" | "long" => some .number
  | "string" | "bytes" | "enum" => some .string
  | "boolean" => some .boolean
  | _ => none

mutual

/-- The type of a field or of the items of an array. -/
inductive SchemaType where
  /-- A primitive type, or a reference to a named one. -/
  | named (name : String)
  | union (branches : List SchemaType)
  | node (n : SchemaNode)

/-- A record, an array, or a primitive type in the form of an object. -/
structure SchemaNode where
  kind : String
  name : Option String
  fields : Option (List SchemaField)
  items : Option SchemaType

/-- A field of a record. -/
structure SchemaField where
  name : String
  type : SchemaType
  doc : Option String

end

/-- The record that describes a whole document. -/
structure Schema where
  kind : String
  name : Option String
  fields : List SchemaField

/-- The schema of a record with some fields. -/
def Schema.ofFields (fields : List SchemaField) : Schema := ⟨"record", none, fields⟩

/-- The schema without fields. -/
def Schema.empty : Schema := .ofFields []

namespace SchemaNode

/-- The fields of a record. -/
def recordFields? (n : SchemaNode) : Option (List SchemaField) :=
  if n.kind = "record" then n.fields else none

/-- The type of the items of an array. -/
def arrayItems? (n : SchemaNode) : Option SchemaType :=
  if n.kind = "array" then n.items else none

end SchemaNode

namespace SchemaType

/-- Whether a type is the name of the null type. -/
def isNull : SchemaType → Bool
  | named name => name == "null"
  | _ => false

/-- The first branch of a union that is not null, or else its first branch; any other type is left
as it is. -/
def nonNull : SchemaType → SchemaType
  | union branches => ((branches.find? (!·.isNull)).or branches.head?).getD (union branches)
  | t => t

/-- The node that a type is. -/
def node? : SchemaType → Option SchemaNode
  | node n => some n
  | _ => none

/-- Whether a type is a union. -/
def isUnion : SchemaType → Bool
  | union _ => true
  | _ => false

/-- The fields of a record type. -/
def recordFields? (t : SchemaType) : Option (List SchemaField) := t.node?.bind (·.recordFields?)

/-- The items of an array type. -/
def arrayItems? (t : SchemaType) : Option SchemaType := t.node?.bind (·.arrayItems?)

/-- The field type of a type when references are not followed; an unknown name counts as a
string. -/
def simpleType (t : SchemaType) : FieldType :=
  match t.nonNull with
  | named name => (FieldType.ofPrimitive? name).getD .string
  | union _ => .string
  | node n =>
    if n.kind = "array" then .array
    else if n.kind = "record" then .object
    else (FieldType.ofPrimitive? n.kind).getD .string

/-- A type is no smaller than the branch that stands for it. -/
theorem sizeOf_nonNull_le (t : SchemaType) : sizeOf t.nonNull ≤ sizeOf t := by
  unfold nonNull
  split
  · next branches =>
    cases h : (branches.find? (!·.isNull)).or branches.head? with
    | none => exact Nat.le_refl _
    | some b =>
      have hb : b ∈ branches := by
        rcases Option.or_eq_some_iff.mp h with h | ⟨_, h⟩
        · exact List.mem_of_find?_eq_some h
        · exact List.mem_of_mem_head? h
      have := List.sizeOf_lt_of_mem hb
      simp only [Option.getD_some, union.sizeOf_spec]
      omega
  · exact Nat.le_refl _

/-- A record type is larger than the list of its fields. -/
theorem sizeOf_recordFields_lt {t : SchemaType} {fields : List SchemaField}
    (h : t.recordFields? = some fields) : sizeOf fields < sizeOf t := by
  cases t with
  | named _ => cases h
  | union _ => cases h
  | node n =>
    obtain ⟨kind, name, fs, items⟩ := n
    simp only [recordFields?, node?, SchemaNode.recordFields?, Option.bind_some] at h
    split at h
    · subst h
      simp only [node.sizeOf_spec, SchemaNode.mk.sizeOf_spec, Option.some.sizeOf_spec]
      omega
    · cases h

/-- An array type is larger than the type of its items. -/
theorem sizeOf_arrayItems_lt {t items : SchemaType} (h : t.arrayItems? = some items) :
    sizeOf items < sizeOf t := by
  cases t with
  | named _ => cases h
  | union _ => cases h
  | node n =>
    obtain ⟨kind, name, fs, its⟩ := n
    simp only [arrayItems?, node?, SchemaNode.arrayItems?, Option.bind_some] at h
    split at h
    · subst h
      simp only [node.sizeOf_spec, SchemaNode.mk.sizeOf_spec, Option.some.sizeOf_spec]
      omega
    · cases h

end SchemaType

/-- A field is larger than its type. -/
theorem SchemaField.sizeOf_type_lt (f : SchemaField) : sizeOf f.type < sizeOf f := by
  obtain ⟨name, type, doc⟩ := f
  simp only [SchemaField.mk.sizeOf_spec]
  omega

end FilterPipeline
