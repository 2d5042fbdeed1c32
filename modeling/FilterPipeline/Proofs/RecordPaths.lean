import FilterPipeline.Proofs.NamedTypes
import FilterPipeline.Proofs.PathTypes
import FilterPipeline.Proofs.UsedNames

/-!
# Paths through records

A path goes from record to record, and it looks for a field in each by its name. Where the names of
a record's fields are different, each field is found, and what is below an array is declared at the
path of the array and its own (`Schema.typeAt?_below`).
-/

namespace FilterPipeline.Schema

variable (s : Schema)

/-- The fields of the root, or of a record that stands anywhere in a schema. -/
def IsRecord (fields : List SchemaField) : Prop :=
  fields = s.fields ∨ ∃ t, s.HasPart t ∧ t.recordFields? = some fields

/-- The fields of each record have different names, and no dots in them. -/
def HasPlainNames : Prop :=
  ∀ fields, s.IsRecord fields →
    (fields.map SchemaField.name).Nodup ∧ ∀ f ∈ fields, HasNoDot f.name

variable {s} {t items : SchemaType} {f : SchemaField} {fields inner : List SchemaField}
  {names : List String} {name parent path : String}

section Parts

/-- What a type of the schema stands for stands in the schema. -/
theorem HasPart.resolve (ht : s.HasPart t) : s.HasPart (s.resolve t) := by
  have hself : s.HasPart t.nonNull := .trans t.isPart_nonNull ht
  rw [Schema.resolve]
  split
  · next name hname =>
    rw [hname] at hself
    split
    · exact hself
    · cases hfound : s.findNamed? name with
      | none => exact hself
      | some found => exact (searches_of_findNamed? hfound).1.hasPart
  · exact hself

/-- The types of the fields of a record are parts of the schema. -/
theorem IsRecord.hasPart (h : s.IsRecord fields) (hf : f ∈ fields) : s.HasPart f.type := by
  cases h with
  | inl hroot => exact ⟨f, hroot ▸ hf, .refl⟩
  | inr hinner =>
    obtain ⟨t, ht, hfields⟩ := hinner
    exact .trans (.field hfields hf .refl) ht

private theorem IsRecord.firstFault?_eq_none (hs : s.validate = .ok ()) (h : s.IsRecord fields) :
    SchemaField.firstFault? fields = none := by
  cases h with
  | inl hroot => exact hroot ▸ firstFault?_of_validate hs
  | inr hinner =>
    obtain ⟨t, ht, hfields⟩ := hinner
    exact (isFaultless_of_validate hs ht).firstFault?_eq_none hfields

/-- The fields of a valid schema have names. -/
theorem IsRecord.name_ne (hs : s.validate = .ok ()) (h : s.IsRecord fields) (hf : f ∈ fields) :
    f.name ≠ "" := by
  intro hname
  have hblank := (SchemaType.field_of_firstFault? (h.firstFault?_eq_none hs) hf).1
  rw [hname] at hblank
  cases hblank

private theorem IsRecord.fieldsBelow? (h : s.IsRecord fields)
    (hbelow : s.fieldsBelow? fields name = some inner) : s.IsRecord inner := by
  obtain ⟨f, hfield, hinner⟩ := Option.bind_eq_some_iff.mp hbelow
  have hresolved := (h.hasPart (List.mem_of_find?_eq_some hfield)).resolve
  refine Or.inr ⟨_, ?_, hinner⟩
  rw [throughItems]
  cases hitems : (s.resolve f.type).arrayItems? with
  | none => exact hresolved
  | some items => exact .resolve (.trans (.items hitems .refl) hresolved)

/-- The declared type at a path stands in the schema. -/
theorem IsRecord.hasPart_of_typeAlong? (h : s.IsRecord fields)
    (htype : s.typeAlong? fields names = some t) : s.HasPart t := by
  induction names generalizing fields with
  | nil => cases htype
  | cons name names ih =>
    by_cases hnames : names = []
    · subst hnames
      obtain ⟨f, hfield, rfl⟩ := Option.map_eq_some_iff.mp htype
      exact h.hasPart (List.mem_of_find?_eq_some hfield)
    · rw [typeAlong?_cons hnames] at htype
      obtain ⟨inner, hbelow, htype⟩ := Option.bind_eq_some_iff.mp htype
      exact ih (h.fieldsBelow? hbelow) htype

end Parts

section Fields

/-- A field is found by its name where names differ. -/
theorem fieldIn?_eq_some (hnames : (fields.map SchemaField.name).Nodup) (hf : f ∈ fields) :
    fieldIn? fields f.name = some f := by
  induction fields with
  | nil => cases hf
  | cons first rest ih =>
    rw [List.map_cons, List.nodup_cons] at hnames
    rw [fieldIn?, List.find?_cons]
    cases List.mem_cons.mp hf with
    | inl heq => rw [heq, beq_self_eq_true]
    | inr hrest =>
      have hne : (first.name == f.name) = false := by
        apply beq_eq_false_iff_ne.mpr
        intro heq
        exact hnames.1 (heq ▸ List.mem_map_of_mem hrest)
      rw [hne]
      exact ih hnames.2 hrest

/-- A type that is written out stands for itself, once null is taken off. -/
theorem resolve_of_node {n : SchemaNode} (h : t.nonNull = .node n) : s.resolve t = .node n := by
  rw [resolve, h]

/-- An array stands for itself. -/
theorem arrayItems?_resolve (hitems : t.nonNull.arrayItems? = some items) :
    (s.resolve t).arrayItems? = some items := by
  obtain ⟨n, hn, -⟩ := SchemaType.arrayItems?_eq_some_iff.mp hitems
  rw [resolve_of_node hn, ← hn]
  exact hitems

/-- Below a record a path goes on with its fields. -/
theorem fieldsBelow?_of_record (hfield : fieldIn? fields name = some f)
    (hrecord : f.type.nonNull.recordFields? = some inner) :
    s.fieldsBelow? fields name = some inner := by
  obtain ⟨n, hn, hkind, -⟩ := SchemaType.recordFields?_eq_some_iff.mp hrecord
  have hitems : (SchemaType.node n).arrayItems? = none := by
    simp [SchemaType.arrayItems?, SchemaType.node?, SchemaNode.arrayItems?, hkind]
  rw [Schema.fieldsBelow?, hfield, Option.bind_some, resolve_of_node hn, throughItems, hitems,
    ← hn, hrecord]

end Fields

section Below

private theorem fieldsAlong?_of_typeAlong? (htype : s.typeAlong? fields names = some t) :
    s.fieldsAlong? fields names = (s.throughItems (s.resolve t)).recordFields? := by
  induction names generalizing fields with
  | nil => cases htype
  | cons name names ih =>
    rw [fieldsAlong?, List.foldlM_cons, Option.bind_eq_bind, fieldsBelow?]
    by_cases hnames : names = []
    · subst hnames
      obtain ⟨f, hfield, rfl⟩ := Option.map_eq_some_iff.mp htype
      rw [hfield, Option.bind_some]
      exact bind_pure (m := Option) _
    · rw [typeAlong?_cons hnames, fieldsBelow?] at htype
      obtain ⟨inner, hbelow, htype⟩ := Option.bind_eq_some_iff.mp htype
      rw [hbelow, Option.bind_some]
      exact ih htype

private theorem fieldsAlong?_of_array (htype : s.typeAlong? fields names = some t)
    (hitems : t.nonNull.arrayItems? = some items)
    (hrecord : (s.resolve items).recordFields? = some inner) :
    s.fieldsAlong? fields names = some inner := by
  rw [fieldsAlong?_of_typeAlong? htype, throughItems, arrayItems?_resolve hitems]
  exact hrecord

/-- The items of an array in the schema are those of a record. -/
theorem IsRecord.of_items (ht : s.HasPart t) (hitems : t.nonNull.arrayItems? = some items)
    (hrecord : (s.resolve items).recordFields? = some inner) : s.IsRecord inner := by
  have hpart : s.HasPart items := .trans ((SchemaType.IsPart.items hitems .refl).trans
    t.isPart_nonNull) ht
  exact Or.inr ⟨_, hpart.resolve, hrecord⟩

/-- What is below an array is declared at the path of the array and its own. -/
theorem typeAt?_below (hpath : s.typeAt? parent = some t)
    (hitems : t.nonNull.arrayItems? = some items)
    (hrecord : (s.resolve items).recordFields? = some inner) :
    s.typeAt? (parent ++ "." ++ path) = s.typeAlong? inner (Text.splitString '.' path) := by
  rw [typeAt?, Text.splitString_dot, typeAlong?_append (Text.splitString_ne_nil '.' path),
    fieldsAlong?_of_array hpath hitems hrecord, Option.bind_some]

/-- What the type of a path leads to counts as being behind an array below it. -/
theorem passesArray_below (hpath : s.typeAt? parent = some t)
    (hitems : t.nonNull.arrayItems? = some items) : s.PassesArray (parent ++ "." ++ path) := by
  have harray : (s.resolve t).arrayItems?.isSome = true := by
    rw [arrayItems?_resolve hitems, Option.isSome_some]
  exact ⟨parent, ⟨path, rfl⟩, t, hpath, harray⟩

end Below

end FilterPipeline.Schema
