import FilterPipeline.Proofs.SchemaParts
import FilterPipeline.Schema.Lookup

/-!
# Named types

The search for a name looks only at the branch that stands for a union, and not at what the items of
items are. Main statements: the search finds exactly the names of the types that it comes to
(`Schema.isSome_findNamed?_iff`), and these are all types of the schema where unions have one branch
besides null and no items are arrays (`Schema.isSearched_of_isPart`). A schema without fault can
have other unions and arrays, and then it can have types that are not found.
-/

namespace FilterPipeline

namespace SchemaType

/-- The search for names comes to a type when it looks at another one, which can be that of a field
or of the items of an array. -/
inductive IsSearched (t : SchemaType) : (amongItems : Bool) → SchemaType → Prop
  | here {amongItems : Bool} {u : SchemaType} (h : u.nonNull = t) : IsSearched t amongItems u
  | field {amongItems : Bool} {u : SchemaType} {fields : List SchemaField} {f : SchemaField}
    (hfields : u.nonNull.recordFields? = some fields) (hf : f ∈ fields)
    (h : IsSearched t false f.type) : IsSearched t amongItems u
  | items {u items : SchemaType} (hitems : u.nonNull.arrayItems? = some items)
    (h : IsSearched t true items) : IsSearched t false u

variable {t u v : SchemaType} {n : SchemaNode} {amongItems : Bool}

private theorem IsSearched.isPart (h : IsSearched t amongItems u) : IsPart t u := by
  induction h with
  | here h => exact h ▸ isPart_nonNull _
  | field hfields hf _ ih => exact (IsPart.field hfields hf ih).trans (isPart_nonNull _)
  | items hitems _ ih => exact (IsPart.items hitems ih).trans (isPart_nonNull _)

private theorem IsSearched.congr (h : IsSearched t amongItems u) (huv : u.nonNull = v.nonNull) :
    IsSearched t amongItems v := by
  cases h with
  | here h => exact .here (huv ▸ h)
  | field hfields hf h => exact .field (huv ▸ hfields) hf h
  | items hitems h => exact .items (huv ▸ hitems) h

section Search

variable {name : String} {deeper : Option SchemaType}

/-- A node that bears a name, or else what is found deeper in it. -/
def foundAt? (name : String) (deeper : Option SchemaType) (t : SchemaType) : Option SchemaType :=
  t.node?.bind fun n ↦ if n.name = some name then some t else deeper

/-- What the search for a name finds in the type of a field or of items. -/
def findNamed? (name : String) (amongItems : Bool) (u : SchemaType) : Option SchemaType :=
  foundAt? name ((u.nonNull.recordFields?.bind (SchemaField.findNamed? name)).or
    (if amongItems then none
    else u.nonNull.arrayItems?.bind fun items ↦
      foundAt? name (items.nonNull.recordFields?.bind (SchemaField.findNamed? name))
        items.nonNull)) u.nonNull

/-- Items are looked into like fields, but not at their own items. -/
theorem findNamed?_eq (name : String) (amongItems : Bool) (u : SchemaType) :
    u.findNamed? name amongItems =
      foundAt? name ((u.nonNull.recordFields?.bind (SchemaField.findNamed? name)).or
        (if amongItems then none else u.nonNull.arrayItems?.bind (findNamed? name true)))
        u.nonNull := by
  have hitems : findNamed? name true = fun items ↦
      foundAt? name (items.nonNull.recordFields?.bind (SchemaField.findNamed? name))
        items.nonNull := by
    apply funext
    intro items
    rw [findNamed?, if_pos rfl, Option.or_none]
  rw [hitems, findNamed?]

private theorem foundAt?_eq_some_iff : foundAt? name deeper u = some t ↔
    ∃ n, u = .node n ∧ (n.name = some name ∧ t = u ∨ n.name ≠ some name ∧ deeper = some t) := by
  cases u with
  | named name => simp [foundAt?, node?]
  | union branches => simp [foundAt?, node?]
  | node n =>
    by_cases hname : n.name = some name
    · simp [foundAt?, node?, hname, eq_comm]
    · simp [foundAt?, node?, hname]

private theorem isSome_foundAt?_iff : (foundAt? name deeper u).isSome = true ↔
    ∃ n, u = .node n ∧ (n.name = some name ∨ deeper.isSome = true) := by
  cases u with
  | named name => simp [foundAt?, node?]
  | union branches => simp [foundAt?, node?]
  | node n =>
    by_cases hname : n.name = some name
    · simp [foundAt?, node?, hname]
    · simp [foundAt?, node?, hname]

end Search

end SchemaType

/-- Among fields the search takes the first type that it finds something in. -/
theorem SchemaField.findNamed?_eq_findSome? (name : String) (fields : List SchemaField) :
    SchemaField.findNamed? name fields = fields.findSome? (·.type.findNamed? name false) := by
  induction fields with
  | nil => rw [SchemaField.findNamed?, List.findSome?_nil]
  | cons f rest ih =>
    have hcons : (f :: rest).findSome? (·.type.findNamed? name false) =
        (f.type.findNamed? name false).or (findNamed? name rest) := by
      rw [List.findSome?_cons, ih]
      cases f.type.findNamed? name false <;> rfl
    rw [SchemaField.findNamed?, hcons]
    apply congrArg (Option.or · (findNamed? name rest))
    rw [SchemaType.findNamed?, SchemaType.foundAt?, if_neg Bool.false_ne_true]
    apply congrArg (Option.bind f.type.nonNull.node?) (funext fun n ↦ ?_)
    by_cases hname : n.name = some name
    · rw [if_pos hname, if_pos hname]
    · rw [if_neg hname, if_neg hname]
      apply congr (congrArg Option.or ?_)
      · split
        · next hitems => rw [hitems]; rfl
        · next items hitems =>
          rw [hitems, Option.bind_some, SchemaType.foundAt?]
          apply congrArg (Option.bind items.nonNull.node?) (funext fun item ↦ ?_)
          split
          · rfl
          · split
            · next hfields => rw [hfields]; rfl
            · next hfields => rw [hfields]; rfl
      · split
        · next hfields => rw [hfields]; rfl
        · next hfields => rw [hfields]; rfl

namespace SchemaType

variable {t u : SchemaType} {n : SchemaNode} {name : String} {amongItems : Bool}

private theorem isSearched_of_findNamed? (u : SchemaType) {amongItems : Bool}
    (h : u.findNamed? name amongItems = some t) :
    IsSearched t amongItems u ∧ ∃ n, t = .node n ∧ n.name = some name := by
  rw [findNamed?_eq, foundAt?_eq_some_iff] at h
  obtain ⟨n, hn, ⟨hname, rfl⟩ | ⟨-, hdeeper⟩⟩ := h
  · exact ⟨.here rfl, n, hn, hname⟩
  cases Option.or_eq_some_iff.mp hdeeper with
  | inl hrecord =>
    obtain ⟨fields, hfields, hfound⟩ := Option.bind_eq_some_iff.mp hrecord
    rw [SchemaField.findNamed?_eq_findSome?] at hfound
    obtain ⟨f, hf, hfound⟩ := List.exists_of_findSome?_eq_some hfound
    have := sizeOf_recordFields_lt hfields
    have := List.sizeOf_lt_of_mem hf
    have hfield := isSearched_of_findNamed? f.type hfound
    exact ⟨.field hfields hf hfield.1, hfield.2⟩
  | inr hitems =>
    by_cases hamong : amongItems = true
    · rw [if_pos hamong] at hitems
      exact absurd hitems.2.symm (Option.some_ne_none t)
    · rw [if_neg hamong] at hitems
      obtain ⟨items, hitems, hfound⟩ := Option.bind_eq_some_iff.mp hitems.2
      have := sizeOf_arrayItems_lt hitems
      have hitem := isSearched_of_findNamed? items hfound
      rw [Bool.not_eq_true _ |>.mp hamong]
      exact ⟨.items hitems hitem.1, hitem.2⟩
termination_by sizeOf u
decreasing_by
  · have := sizeOf_nonNull_le u
    have := f.sizeOf_type_lt
    omega
  · have := sizeOf_nonNull_le u
    omega

private theorem isSome_findNamed?_of_isSearched (h : IsSearched t amongItems u) (ht : t = .node n)
    (hname : n.name = some name) : (u.findNamed? name amongItems).isSome = true := by
  induction h with
  | here h =>
    rw [findNamed?_eq, isSome_foundAt?_iff]
    exact ⟨n, h.trans ht, Or.inl hname⟩
  | field hfields hf _ ih =>
    obtain ⟨m, hm, -⟩ := recordFields?_eq_some_iff.mp hfields
    rw [findNamed?_eq, isSome_foundAt?_iff]
    refine ⟨m, hm, Or.inr ?_⟩
    rw [hfields, Option.bind_some, SchemaField.findNamed?_eq_findSome?, Option.isSome_or,
      List.findSome?_isSome_iff.mpr ⟨_, hf, ih⟩, Bool.true_or]
  | items hitems _ ih =>
    obtain ⟨m, hm, -⟩ := arrayItems?_eq_some_iff.mp hitems
    rw [findNamed?_eq, isSome_foundAt?_iff]
    refine ⟨m, hm, Or.inr ?_⟩
    rw [hitems, if_neg Bool.false_ne_true, Option.bind_some, Option.isSome_or, ih, Bool.or_true]

end SchemaType

namespace Schema

variable (s : Schema)

/-- The search for names comes to a type. -/
def Searches (t : SchemaType) : Prop := ∃ f ∈ s.fields, t.IsSearched false f.type

/-- A name leads to a type that bears it. -/
def DefinesNamed (name : String) : Prop :=
  ∃ n, s.findNamed? name = some (.node n) ∧ n.name = some name ∧ s.resolve (.named name) = .node n

/-- No union of the schema has two branches besides null. -/
def HasOptionalUnions : Prop :=
  ∀ branches, s.HasPart (.union branches) → (branches.filter (!·.isNull)).length ≤ 1

/-- The items of an array are never arrays themselves. -/
def HasFlatArrays : Prop :=
  ∀ t items, s.HasPart t → t.arrayItems? = some items → items.nonNull.arrayItems? = none

variable {s} {t u : SchemaType} {n : SchemaNode} {name : String}

/-- What is found bears the name, and the search comes to it. -/
theorem searches_of_findNamed? (h : s.findNamed? name = some t) :
    s.Searches t ∧ ∃ n, t = .node n ∧ n.name = some name := by
  rw [findNamed?, SchemaField.findNamed?_eq_findSome?] at h
  obtain ⟨f, hf, hfound⟩ := List.exists_of_findSome?_eq_some h
  obtain ⟨hsearched, hnode⟩ := SchemaType.isSearched_of_findNamed? f.type hfound
  exact ⟨⟨f, hf, hsearched⟩, hnode⟩

/-- A type is found just when one that is searched has the name. -/
theorem isSome_findNamed?_iff :
    (s.findNamed? name).isSome = true ↔ ∃ n, s.Searches (.node n) ∧ n.name = some name := by
  constructor
  · intro h
    obtain ⟨t, ht⟩ := Option.isSome_iff_exists.mp h
    obtain ⟨hsearched, n, rfl, hname⟩ := searches_of_findNamed? ht
    exact ⟨n, hsearched, hname⟩
  · rintro ⟨n, ⟨f, hf, hsearched⟩, hname⟩
    rw [findNamed?, SchemaField.findNamed?_eq_findSome?, List.findSome?_isSome_iff]
    exact ⟨f, hf, SchemaType.isSome_findNamed?_of_isSearched hsearched rfl hname⟩

/-- What the search comes to stands in the schema. -/
theorem Searches.hasPart (h : s.Searches t) : s.HasPart t := by
  obtain ⟨f, hf, h⟩ := h
  exact ⟨f, hf, h.isPart⟩

/-- A name that is no primitive type's stands for what is found under it. -/
theorem resolve_named (hname : FieldType.ofPrimitive? name = none) :
    s.resolve (.named name) = (s.findNamed? name).getD (.named name) := by
  simp [resolve, SchemaType.nonNull, hname]

/-- A name that is no primitive type's leads to a type exactly when one is found. -/
theorem definesNamed_iff (hname : FieldType.ofPrimitive? name = none) :
    s.DefinesNamed name ↔ (s.findNamed? name).isSome = true := by
  constructor
  · rintro ⟨n, hfound, -, -⟩
    rw [hfound, Option.isSome_some]
  · intro h
    obtain ⟨t, ht⟩ := Option.isSome_iff_exists.mp h
    obtain ⟨-, n, rfl, hn⟩ := searches_of_findNamed? ht
    refine ⟨n, ht, hn, ?_⟩
    rw [resolve_named hname, ht, Option.getD_some]

private theorem nonNull_eq_of_optional {branches : List SchemaType} {b : SchemaType}
    (hlength : (branches.filter (!·.isNull)).length ≤ 1) (hb : b ∈ branches)
    (hnull : b.isNull = false) : (SchemaType.union branches).nonNull = b := by
  have hmem : b ∈ branches.filter (!·.isNull) :=
    List.mem_filter.mpr ⟨hb, by rw [hnull, Bool.not_false]⟩
  have hfind : branches.find? (!·.isNull) = some b := by
    rw [← List.head?_filter]
    cases hfilter : branches.filter (!·.isNull) with
    | nil =>
      rw [hfilter] at hmem
      cases hmem
    | cons first rest =>
      rw [hfilter] at hmem hlength
      have hrest : rest = [] := List.eq_nil_of_length_eq_zero (by
        rw [List.length_cons] at hlength
        omega)
      rw [hrest, List.mem_singleton] at hmem
      rw [hmem, List.head?_cons]
  rw [SchemaType.nonNull, hfind]
  rfl

/-- The search comes to every node of a valid schema whose unions have one branch besides null and
whose arrays have no arrays as items. -/
theorem isSearched_of_isPart (hs : s.validate = .ok ()) (hunions : s.HasOptionalUnions)
    (harrays : s.HasFlatArrays) (h : (SchemaType.node n).IsPart u) (hu : s.HasPart u)
    {amongItems : Bool} (hitems : amongItems = true → u.nonNull.arrayItems? = none) :
    (SchemaType.node n).IsSearched amongItems u := by
  -- among items there are no further items to look at, which is where the search would stop
  induction h generalizing amongItems with
  | refl => exact .here rfl
  | @branch b branches hb hpart ih =>
    have hnull : b.isNull = false := by
      cases b with
      | named name => cases SchemaType.isPart_named_iff.mp hpart
      | union branches => rfl
      | node m => rfl
    obtain ⟨owner, hfault⟩ := isFaultless_of_validate hs hu
    rw [SchemaType.fault?] at hfault
    split at hfault
    · cases hfault
    · have hunion := (SchemaType.branch_of_branchFault? hfault hb).1
      have hself := SchemaType.nonNull_eq_self hunion
      have hstands := nonNull_eq_of_optional (hunions branches hu) hb hnull
      rw [hstands, ← hself] at hitems
      exact (ih (.trans (.branch hb .refl) hu) hitems).congr (hself.trans hstands.symm)
  | @field u fields f hfields hf _ ih =>
    obtain ⟨m, rfl, -⟩ := SchemaType.recordFields?_eq_some_iff.mp hfields
    have hfield := ih (.trans (.field hfields hf .refl) hu) fun h ↦ absurd h Bool.false_ne_true
    exact .field hfields hf hfield
  | @items u items hu' _ ih =>
    obtain ⟨m, rfl, -⟩ := SchemaType.arrayItems?_eq_some_iff.mp hu'
    cases amongItems with
    | true =>
      have hnone : (SchemaType.node m).arrayItems? = none := hitems rfl
      rw [hu'] at hnone
      exact absurd hnone (Option.some_ne_none items)
    | false =>
      exact .items hu' (ih (.trans (.items hu' .refl) hu) fun _ ↦ harrays _ items hu hu')

/-- A name that is no primitive type's is found, and stands for what bears it, exactly when the
search comes to a type of that name; otherwise it stands for itself. In a valid schema whose unions
have one branch besides null and whose arrays have no arrays as items, all names are found. -/
theorem namedTypes_found (hs : s.validate = .ok ())
    (hname : FieldType.ofPrimitive? name = none) :
    (s.DefinesNamed name ↔ ∃ n, s.Searches (.node n) ∧ n.name = some name) ∧
      (¬ s.DefinesNamed name →
        s.findNamed? name = none ∧ s.resolve (.named name) = .named name) ∧
      (s.HasOptionalUnions → s.HasFlatArrays →
        ∀ n, s.HasPart (.node n) → n.name = some name → s.DefinesNamed name) := by
  have hiff : s.DefinesNamed name ↔ ∃ n, s.Searches (.node n) ∧ n.name = some name :=
    (definesNamed_iff hname).trans isSome_findNamed?_iff
  refine ⟨hiff, ?_, ?_⟩
  · intro h
    rw [definesNamed_iff hname, Option.not_isSome_iff_eq_none] at h
    rw [resolve_named hname, h]
    exact ⟨rfl, rfl⟩
  · intro hunions harrays n hn hbears
    obtain ⟨f, hf, hpart⟩ := hn
    have hsearched := isSearched_of_isPart hs hunions harrays hpart ⟨f, hf, .refl⟩
      fun h ↦ absurd h Bool.false_ne_true
    exact hiff.mpr ⟨n, ⟨f, hf, hsearched⟩, hbears⟩

/-- A record of a point. -/
def point : SchemaNode := ⟨"record", some "Point", some [⟨"x", .named "double", none⟩], none⟩

/-- A record of a frame around a point. -/
def frame : SchemaNode := ⟨"record", some "Frame", some [⟨"origin", .node point, none⟩], none⟩

/-- A frame or nothing. -/
def optionalFrame : SchemaType := .union [.named "null", .node frame]

/-- An array of frames, some of which may be missing. -/
def frameArray : SchemaType := .node ⟨"array", none, none, some optionalFrame⟩

/-- A schema with an array of frames. -/
def frames : Schema := .ofFields [⟨"frames", frameArray, none⟩]

private theorem frames_hasPart_iff {t : SchemaType} : frames.HasPart t ↔
    t = frameArray ∨ t = optionalFrame ∨ t = .named "null" ∨ t = .node frame ∨ t = .node point ∨
      t = .named "double" := by
  simp [HasPart, frames, ofFields, frameArray, optionalFrame, frame, point,
    SchemaType.isPart_node_iff, SchemaType.isPart_union_iff, SchemaType.isPart_named_iff,
    SchemaNode.recordFields?, SchemaNode.arrayItems?]

/-- The point that stands in the frames is found. -/
theorem frames_point_found : frames.validate = .ok () ∧ frames.HasOptionalUnions ∧
    frames.HasFlatArrays ∧ frames.HasPart (.node point) ∧ frames.DefinesNamed "Point" := by
  have hunions : frames.HasOptionalUnions := by
    intro branches h
    rcases frames_hasPart_iff.mp h with h | h | h | h | h | h
    all_goals cases h
    exact Nat.le_refl 1
  have harrays : frames.HasFlatArrays := by
    intro t items h hitems
    rcases frames_hasPart_iff.mp h with rfl | rfl | rfl | rfl | rfl | rfl
    all_goals cases hitems
    rfl
  have hpart : frames.HasPart (.node point) := by simp [frames_hasPart_iff]
  have hvalid : frames.validate = .ok () := rfl
  have hname : FieldType.ofPrimitive? "Point" = none := rfl
  exact ⟨hvalid, hunions, harrays, hpart,
    (namedTypes_found hvalid hname).2.2 hunions harrays point hpart rfl⟩

/-- An array of arrays of points, and a point by its name. -/
def grid : Schema :=
  .ofFields [⟨"grid", .node ⟨"array", none, none,
    some (.node ⟨"array", none, none, some (.node point)⟩)⟩, none⟩, ⟨"best", .named "Point", none⟩]

/-- A point that stands among the items of items is not found. -/
theorem grid_point_not_found :
    ¬ ∀ (s : Schema) (n : SchemaNode) (name : String), s.validate = .ok () →
      FieldType.ofPrimitive? name = none → s.HasPart (.node n) →
      n.kind = "record" ∨ n.kind = "array" → n.name = some name → s.DefinesNamed name := by
  intro h
  have hpart : grid.HasPart (.node point) :=
    ⟨_, List.mem_cons_self, .items rfl (.items rfl .refl)⟩
  have hdefined := h grid point "Point" rfl rfl hpart (Or.inl rfl) rfl
  rw [definesNamed_iff rfl, findNamed?, SchemaField.findNamed?_eq_findSome?] at hdefined
  cases hdefined

end Schema

end FilterPipeline
