import FilterPipeline.Schema.Basic
import FilterPipeline.Schema.Validity

/-!
# Parts of a schema

A type can stand at any place of a schema: in a branch of a union, in a field of a record, among the
items of an array. Main statement: a valid schema has no faults anywhere
(`Schema.isFaultless_of_validate`).
-/

namespace FilterPipeline

namespace SchemaType

/-- A type stands somewhere in another one, itself included. -/
inductive IsPart (t : SchemaType) : SchemaType → Prop
  | refl : IsPart t t
  | branch {b : SchemaType} {branches : List SchemaType} (hb : b ∈ branches) (h : IsPart t b) :
    IsPart t (.union branches)
  | field {u : SchemaType} {fields : List SchemaField} {f : SchemaField}
    (hfields : u.recordFields? = some fields) (hf : f ∈ fields) (h : IsPart t f.type) : IsPart t u
  | items {u items : SchemaType} (hitems : u.arrayItems? = some items) (h : IsPart t items) :
    IsPart t u

/-- A type is without fault in a field of some name. -/
def IsFaultless (t : SchemaType) : Prop := ∃ owner, t.fault? owner = none

variable {t u v : SchemaType} {n : SchemaNode} {branches : List SchemaType}

section Parts

/-- The types with fields are the records that list them. -/
theorem recordFields?_eq_some_iff {fields : List SchemaField} : t.recordFields? = some fields ↔
    ∃ n, t = .node n ∧ n.kind = "record" ∧ n.fields = some fields := by
  cases t with
  | named name => simp [recordFields?, node?]
  | union branches => simp [recordFields?, node?]
  | node n => simp [recordFields?, node?, SchemaNode.recordFields?]

/-- The types with items are the arrays that tell theirs. -/
theorem arrayItems?_eq_some_iff {items : SchemaType} :
    t.arrayItems? = some items ↔ ∃ n, t = .node n ∧ n.kind = "array" ∧ n.items = some items := by
  cases t with
  | named name => simp [arrayItems?, node?]
  | union branches => simp [arrayItems?, node?]
  | node n => simp [arrayItems?, node?, SchemaNode.arrayItems?]

/-- A part of a part is a part. -/
theorem IsPart.trans (h : IsPart t u) (h' : IsPart u v) : IsPart t v := by
  induction h' with
  | refl => exact h
  | branch hb _ ih => exact .branch hb ih
  | field hfields hf _ ih => exact .field hfields hf ih
  | items hitems _ ih => exact .items hitems ih

/-- A type that is only named has no other part. -/
theorem isPart_named_iff {name : String} : IsPart t (.named name) ↔ t = .named name := by
  constructor
  · intro h
    cases h with
    | refl => rfl
    | field hfields => cases hfields
    | items hitems => cases hitems
  · intro h
    exact h ▸ .refl

/-- The parts of a union are the union and those of its branches. -/
theorem isPart_union_iff :
    IsPart t (.union branches) ↔ t = .union branches ∨ ∃ b ∈ branches, IsPart t b := by
  constructor
  · intro h
    cases h with
    | refl => exact Or.inl rfl
    | branch hb h => exact Or.inr ⟨_, hb, h⟩
    | field hfields => cases hfields
    | items hitems => cases hitems
  · rintro (rfl | ⟨b, hb, h⟩)
    · exact .refl
    · exact .branch hb h

/-- The parts of a type that is written out are the type and those of its fields or items. -/
theorem isPart_node_iff : IsPart t (.node n) ↔ t = .node n ∨
    (∃ fields, n.recordFields? = some fields ∧ ∃ f ∈ fields, IsPart t f.type) ∨
    ∃ items, n.arrayItems? = some items ∧ IsPart t items := by
  constructor
  · intro h
    cases h with
    | refl => exact Or.inl rfl
    | field hfields hf h => exact Or.inr (Or.inl ⟨_, hfields, _, hf, h⟩)
    | items hitems h => exact Or.inr (Or.inr ⟨_, hitems, h⟩)
  · rintro (rfl | ⟨fields, hfields, f, hf, h⟩ | ⟨items, hitems, h⟩)
    · exact .refl
    · exact .field (u := .node n) hfields hf h
    · exact .items (u := .node n) hitems h

/-- What is no union stands for itself. -/
theorem nonNull_eq_self (h : t.isUnion = false) : t.nonNull = t := by
  cases t with
  | named name => rfl
  | union branches => cases h
  | node n => rfl

/-- The branch that stands for a union is one of its branches, if it has any. -/
theorem nonNull_union_mem (h : branches ≠ []) : (union branches).nonNull ∈ branches := by
  rw [nonNull]
  cases hfind : branches.find? (!·.isNull) with
  | some b => exact List.mem_of_find?_eq_some hfind
  | none =>
    rw [Option.none_or, List.head?_eq_some_head h, Option.getD_some]
    exact List.head_mem h

/-- What stands for a type is a part of it. -/
theorem isPart_nonNull (t : SchemaType) : IsPart t.nonNull t := by
  cases t with
  | named name => exact .refl
  | node n => exact .refl
  | union branches =>
    by_cases hnil : branches = []
    · subst hnil
      exact .refl
    · exact .branch (nonNull_union_mem hnil) .refl

end Parts

section Faults

/-- The branches of a union without fault are no unions, and are without fault. -/
theorem branch_of_branchFault? {owner : String} (h : branchFault? owner branches = none)
    {b : SchemaType} (hb : b ∈ branches) : b.isUnion = false ∧ b.fault? owner = none := by
  induction branches with
  | nil => cases hb
  | cons first rest ih =>
    rw [branchFault?] at h
    cases hunion : first.isUnion with
    | true => simp [hunion] at h
    | false =>
      rw [hunion, if_neg Bool.false_ne_true, Option.or_eq_none_iff] at h
      cases List.mem_cons.mp hb with
      | inl heq => exact heq ▸ ⟨hunion, h.1⟩
      | inr hrest => exact ih h.2 hrest

/-- What stands for a type without fault is no union. -/
theorem IsFaultless.isUnion_nonNull (ht : t.IsFaultless) : t.nonNull.isUnion = false := by
  cases t with
  | named name => rfl
  | node n => rfl
  | union branches =>
    obtain ⟨owner, h⟩ := ht
    have hne : branches ≠ [] := by
      rintro rfl
      cases h
    rw [fault?, if_neg (mt List.isEmpty_iff.mp hne)] at h
    exact (branch_of_branchFault? h (nonNull_union_mem hne)).1

/-- The fields of a record without fault have types without fault, and names. -/
theorem field_of_firstFault? {fields : List SchemaField}
    (h : SchemaField.firstFault? fields = none) {f : SchemaField} (hf : f ∈ fields) :
    Text.allBlank f.name.toList = false ∧ f.type.IsFaultless := by
  induction fields with
  | nil => cases hf
  | cons first rest ih =>
    rw [SchemaField.firstFault?, Option.or_eq_none_iff] at h
    cases List.mem_cons.mp hf with
    | inl heq =>
      subst heq
      obtain ⟨name, type, doc⟩ := f
      rw [SchemaField.fault?] at h
      cases hblank : Text.allBlank name.toList with
      | true => simp [hblank] at h
      | false =>
        rw [hblank, if_neg Bool.false_ne_true] at h
        exact ⟨rfl, name, h.1⟩
    | inr hrest => exact ih h.2 hrest

/-- A record without fault has fields without fault. -/
theorem IsFaultless.firstFault?_eq_none (ht : t.IsFaultless) {fields : List SchemaField}
    (hfields : t.recordFields? = some fields) : SchemaField.firstFault? fields = none := by
  obtain ⟨⟨kind, name, fields, items⟩, rfl, hkind, hn⟩ := recordFields?_eq_some_iff.mp hfields
  obtain ⟨owner, h⟩ := ht
  subst hn
  cases items with
  | none =>
    rw [fault?, if_pos hkind] at h
    exact h
  | some items =>
    rw [fault?, if_pos hkind] at h
    exact h

/-- A node without fault that is no record by its fields is none by its kind. -/
theorem IsFaultless.kind_ne_record (ht : (node n).IsFaultless)
    (hfields : (node n).recordFields? = none) : n.kind ≠ "record" := by
  intro hkind
  obtain ⟨kind, name, fields, items⟩ := n
  obtain ⟨owner, h⟩ := ht
  subst hkind
  cases fields with
  | some fields => cases hfields
  | none => cases items <;> cases h

private theorem IsFaultless.arrayItems (ht : t.IsFaultless) {items : SchemaType}
    (hitems : t.arrayItems? = some items) : items.IsFaultless := by
  obtain ⟨⟨kind, name, fields, items⟩, rfl, hkind, hn⟩ := arrayItems?_eq_some_iff.mp hitems
  obtain ⟨owner, h⟩ := ht
  subst hn hkind
  exact ⟨owner, h⟩

/-- The parts of a type without fault are without fault. -/
theorem IsFaultless.of_isPart (hu : u.IsFaultless) (h : IsPart t u) : t.IsFaultless := by
  induction h with
  | refl => exact hu
  | @branch b branches hb _ ih =>
    obtain ⟨owner, hfault⟩ := hu
    rw [fault?] at hfault
    split at hfault
    · cases hfault
    · exact ih ⟨owner, (branch_of_branchFault? hfault hb).2⟩
  | field hfields hf _ ih =>
    exact ih (field_of_firstFault? (hu.firstFault?_eq_none hfields) hf).2
  | items hitems _ ih => exact ih (hu.arrayItems hitems)

end Faults

end SchemaType

namespace Schema

/-- A type stands anywhere in a schema. -/
def HasPart (s : Schema) (t : SchemaType) : Prop := ∃ f ∈ s.fields, t.IsPart f.type

variable {s : Schema} {t u : SchemaType}

/-- A part of a part of a schema is a part of the schema. -/
theorem HasPart.trans (ht : t.IsPart u) (hu : s.HasPart u) : s.HasPart t := by
  obtain ⟨f, hf, h⟩ := hu
  exact ⟨f, hf, ht.trans h⟩

/-- The fields of a valid schema are without fault. -/
theorem firstFault?_of_validate (h : s.validate = .ok ()) :
    SchemaField.firstFault? s.fields = none := by
  rw [validate] at h
  split at h
  · next hfault =>
    rw [fault?] at hfault
    split at hfault
    · exact hfault
    · cases hfault
  · cases h

/-- The types in a valid schema are without fault. -/
theorem isFaultless_of_validate (h : s.validate = .ok ()) (ht : s.HasPart t) : t.IsFaultless := by
  obtain ⟨f, hf, hpart⟩ := ht
  exact (SchemaType.field_of_firstFault? (firstFault?_of_validate h) hf).2.of_isPart hpart

end Schema

end FilterPipeline
