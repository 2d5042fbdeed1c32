import FilterPipeline.Proofs.ProjectionKeys
import FilterPipeline.Schema.Lookup

/-!
# Types at paths

A path has a declared type, and it has a field type. Both are looked up name by name, and both go on
below a name with the same fields. Main statement: the field type at a path is what the declared
type at it means once it is resolved (`Schema.fieldTypeAt?_eq_some_iff`); of the way there, nothing
counts but whether it passes an array.
-/

namespace FilterPipeline

/-- What a resolved type means for a filter. A record behind an array stands for many values. -/
inductive SchemaType.Means (behindArray : Prop) : SchemaType → FieldType → Prop
  | named {name : String} {t : FieldType} (h : FieldType.ofPrimitive? name = some t) :
    Means behindArray (.named name) t
  | primitive {n : SchemaNode} {t : FieldType} (h : FieldType.ofPrimitive? n.kind = some t) :
    Means behindArray (.node n) t
  | array {n : SchemaNode} (h : n.kind = "array") : Means behindArray (.node n) .array
  | records {n : SchemaNode} (h : n.kind = "record") (hbehind : behindArray) :
    Means behindArray (.node n) .array
  | record {n : SchemaNode} (h : n.kind = "record") (hbehind : ¬ behindArray) :
    Means behindArray (.node n) .object

namespace Schema

/-- The field type of a resolved type is what it means. -/
theorem leafType?_eq_some_iff {behindArray : Bool} {u : SchemaType} {t : FieldType} :
    leafType? behindArray u = some t ↔ u.Means (behindArray = true) t := by
  cases u with
  | named name =>
    constructor
    · exact .named
    · intro h
      cases h with
      | named h => exact h
  | union branches =>
    constructor
    · intro h
      cases h
    · intro h
      cases h
  | node n =>
    rw [leafType?]
    constructor
    · intro h
      by_cases harray : n.kind = "array"
      · rw [if_pos harray] at h
        cases h
        exact .array harray
      · rw [if_neg harray] at h
        by_cases hrecord : n.kind = "record"
        · rw [if_pos hrecord] at h
          cases behindArray with
          | true =>
            cases h
            exact .records hrecord rfl
          | false =>
            cases h
            exact .record hrecord Bool.false_ne_true
        · rw [if_neg hrecord] at h
          exact .primitive h
    · intro h
      -- the kinds of arrays and records are no primitive types
      cases h with
      | primitive h =>
        have harray : n.kind ≠ "array" := fun hkind ↦ by
          rw [hkind] at h
          cases h
        have hrecord : n.kind ≠ "record" := fun hkind ↦ by
          rw [hkind] at h
          cases h
        rw [if_neg harray, if_neg hrecord, h]
      | array h => rw [if_pos h]
      | records h hbehind =>
        rw [h, hbehind]
        rfl
      | record h hbehind =>
        rw [h, Bool.not_eq_true _ |>.mp hbehind]
        rfl

variable (s : Schema)

/-- The fields with which a path goes on below a name. -/
def fieldsBelow? (fields : List SchemaField) (name : String) : Option (List SchemaField) :=
  (fieldIn? fields name).bind fun f ↦ (s.throughItems (s.resolve f.type)).recordFields?

/-- The fields with which a path goes on below several names. -/
def fieldsAlong? (fields : List SchemaField) (names : List String) : Option (List SchemaField) :=
  names.foldlM s.fieldsBelow? fields

/-- Some names at the beginning of a path, but not all of them, lead to an array. -/
def PassesArrayAlong (fields : List SchemaField) (names : List String) : Prop :=
  ∃ before rest t, names = before ++ rest ∧ rest ≠ [] ∧ s.typeAlong? fields before = some t ∧
    (s.resolve t).arrayItems?.isSome = true

/-- What stands before some dot of a path leads to an array. -/
def PassesArray (path : String) : Prop :=
  ∃ before, IsAncestor before path ∧
    ∃ t, s.typeAt? before = some t ∧ (s.resolve t).arrayItems?.isSome = true

variable {s} {fields inner : List SchemaField} {f : SchemaField} {name : String}
  {names : List String} {throughArray : Bool} {t : FieldType}

/-- The declared type at a path is looked up below its first name. -/
theorem typeAlong?_cons (hnames : names ≠ []) :
    s.typeAlong? fields (name :: names) =
      (s.fieldsBelow? fields name).bind (s.typeAlong? · names) := by
  cases names with
  | nil => exact absurd rfl hnames
  | cons next names =>
    simp only [typeAlong?, fieldsBelow?, Option.bind_eq_bind, Option.bind_assoc]

/-- The declared type at a path is looked up below some of its first names. -/
theorem typeAlong?_append {before : List String} (hnames : names ≠ []) :
    s.typeAlong? fields (before ++ names) =
      (s.fieldsAlong? fields before).bind (s.typeAlong? · names) := by
  induction before generalizing fields with
  | nil => rfl
  | cons name before ih =>
    have hrest : before ++ names ≠ [] := List.append_ne_nil_of_right_ne_nil before hnames
    rw [List.cons_append, typeAlong?_cons hrest, fieldsAlong?, List.foldlM_cons,
      Option.bind_eq_bind, Option.bind_assoc]
    exact congrArg (Option.bind (s.fieldsBelow? fields name)) (funext fun _ ↦ ih)

/-- A further name goes on from the fields below those before it. -/
theorem fieldsAlong?_concat {before : List String} :
    s.fieldsAlong? fields (before ++ [name]) =
      (s.fieldsAlong? fields before).bind (s.fieldsBelow? · name) := by
  rw [fieldsAlong?, List.foldlM_append, Option.bind_eq_bind]
  simp only [List.foldlM_cons, List.foldlM_nil, bind_pure]
  rfl

private theorem fieldTypeAlong?_cons (hnames : names ≠ [])
    (hfield : fieldIn? fields name = some f) :
    s.fieldTypeAlong? fields throughArray (name :: names) =
      (s.fieldsBelow? fields name).bind
        (s.fieldTypeAlong? · (throughArray || (s.resolve f.type).arrayItems?.isSome) names) := by
  cases names with
  | nil => exact absurd rfl hnames
  | cons next names =>
    simp only [fieldTypeAlong?, fieldsBelow?, throughItems, hfield, Option.bind_eq_bind,
      Option.bind_some]
    cases (s.resolve f.type).arrayItems? with
    | none => rw [Option.isSome_none, Bool.or_false]
    | some items => rw [Option.isSome_some, Bool.or_true]

/-- A single name is no way through an array. -/
theorem not_passesArrayAlong_singleton : ¬ s.PassesArrayAlong fields [name] := by
  rintro ⟨before, rest, t, hsplit, hrest, htype, -⟩
  cases before with
  | nil => cases htype
  | cons first before =>
    have hnil : [] = before ++ rest := (List.cons.inj hsplit).2
    exact hrest (List.append_eq_nil_iff.mp hnil.symm).2

/-- A path passes an array at its first name or below it. -/
theorem passesArrayAlong_cons_iff (hnames : names ≠ []) (hfield : fieldIn? fields name = some f)
    (hbelow : s.fieldsBelow? fields name = some inner) :
    s.PassesArrayAlong fields (name :: names) ↔
      (s.resolve f.type).arrayItems?.isSome = true ∨ s.PassesArrayAlong inner names := by
  constructor
  · rintro ⟨before, rest, t, hsplit, hrest, htype, harray⟩
    cases before with
    | nil => cases htype
    | cons first before =>
      obtain ⟨rfl, rfl⟩ := List.cons.inj hsplit
      by_cases hbefore : before = []
      · subst hbefore
        rw [typeAlong?, hfield, Option.map_some] at htype
        cases htype
        exact Or.inl harray
      · rw [typeAlong?_cons hbefore, hbelow] at htype
        exact Or.inr ⟨before, rest, t, rfl, hrest, htype, harray⟩
  · intro h
    cases h with
    | inl harray =>
      refine ⟨[name], names, f.type, rfl, hnames, ?_, harray⟩
      rw [typeAlong?, hfield, Option.map_some]
    | inr h =>
      obtain ⟨before, rest, t, rfl, hrest, htype, harray⟩ := h
      refine ⟨name :: before, rest, t, rfl, hrest, ?_, harray⟩
      have hbefore : before ≠ [] := fun hnil ↦ by
        rw [hnil] at htype
        cases htype
      rw [typeAlong?_cons hbefore, hbelow]
      exact htype

/-- The field type along names is what the declared type along them means. -/
theorem fieldTypeAlong?_eq_some_iff :
    s.fieldTypeAlong? fields throughArray names = some t ↔ ∃ u, s.typeAlong? fields names = some u ∧
      (s.resolve u).Means (throughArray = true ∨ s.PassesArrayAlong fields names) t := by
  -- the flag stands for the arrays passed so far, the relation for those still to come
  induction names generalizing fields throughArray with
  | nil => simp [fieldTypeAlong?, typeAlong?]
  | cons name names ih =>
    by_cases hnames : names = []
    · subst hnames
      simp only [fieldTypeAlong?, typeAlong?, not_passesArrayAlong_singleton, or_false,
        Option.bind_eq_bind, Option.bind_eq_some_iff, Option.map_eq_some_iff,
        leafType?_eq_some_iff, exists_exists_and_eq_and]
    · cases hfield : fieldIn? fields name with
      | none =>
        cases names with
        | nil => exact absurd rfl hnames
        | cons next names => simp [fieldTypeAlong?, typeAlong?, hfield]
      | some f =>
        rw [typeAlong?_cons hnames, fieldTypeAlong?_cons hnames hfield]
        cases hbelow : s.fieldsBelow? fields name with
        | none => simp
        | some inner =>
          rw [Option.bind_some, Option.bind_some, ih,
            passesArrayAlong_cons_iff hnames hfield hbelow, Bool.or_eq_true, or_assoc]

/-- What stands before a dot is what some of the names of a path are. -/
theorem passesArray_iff {path : String} :
    s.PassesArray path ↔ s.PassesArrayAlong s.fields (Text.splitString '.' path) := by
  constructor
  · rintro ⟨before, ⟨rest, rfl⟩, t, htype, harray⟩
    exact ⟨_, _, t, Text.splitString_dot before rest, Text.splitString_ne_nil '.' rest, htype,
      harray⟩
  · rintro ⟨before, rest, t, hsplit, hrest, htype, harray⟩
    have hbefore : before ≠ [] := fun hnil ↦ by
      rw [hnil] at htype
      cases htype
    obtain ⟨a, b, rfl, rfl, rfl⟩ := Text.exists_of_splitString_eq_append hsplit hbefore hrest
    exact ⟨a, ⟨b, rfl⟩, t, htype, harray⟩

/-- The field type at a path is looked up where the declared type is. -/
theorem fieldTypeAt?_iff_means {path : String} {u : SchemaType} (hu : s.typeAt? path = some u) :
    s.fieldTypeAt? path = some t ↔ (s.resolve u).Means (s.PassesArray path) t := by
  rw [typeAt?] at hu
  rw [fieldTypeAt?, fieldTypeAlong?_eq_some_iff, passesArray_iff, hu]
  simp only [Bool.false_eq_true, false_or, Option.some.injEq, exists_eq_left']

/-- A path has a field type exactly when it has a declared type that means one once it is resolved,
and then it is that one. A record is an array there when something before a dot of the path leads to
an array. -/
theorem fieldTypeAt?_eq_some_iff (s : Schema) (path : String) (t : FieldType) :
    s.fieldTypeAt? path = some t ↔
      ∃ u, s.typeAt? path = some u ∧ (s.resolve u).Means (s.PassesArray path) t := by
  rw [fieldTypeAt?, typeAt?, fieldTypeAlong?_eq_some_iff, passesArray_iff]
  simp only [Bool.false_eq_true, false_or]

end Schema
end FilterPipeline
