import FilterPipeline.Proofs.RecordPaths
import FilterPipeline.Schema.Completion

/-!
# Offered fields

The editor offers the fields that are no records, each by its path, and it looks at their types
without following references. Main statement: what is offered is declared, and offered with the type
that its path has (`Schema.options_typed`). A type that nothing is known of is offered as a string,
and the parts of an array of catalogs are offered as arrays, whatever they are.
-/

namespace FilterPipeline

/-- The names in a path; there are none in the path of a whole document. -/
def pathNames (path : String) : List String :=
  if path.isEmpty then [] else Text.splitString '.' path

/-- A field below a path is opened down to one that is no record, which has a path of its own. -/
inductive SchemaField.OpensTo : (parent : String) → SchemaField → (path : String) →
    (leaf : SchemaField) → Prop
  | self {parent : String} {f : SchemaField} (h : f.type.nonNull.recordFields? = none) :
    OpensTo parent f (joinPath parent f.name) f
  | within {parent path : String} {f g leaf : SchemaField} {fields : List SchemaField}
    (hfields : f.type.nonNull.recordFields? = some fields) (hg : g ∈ fields)
    (h : OpensTo (joinPath parent f.name) g path leaf) : OpensTo parent f path leaf

section Paths

variable {parent name : String}

/-- The names of a field's path are those of the path it is below, and its own. -/
theorem splitString_joinPath (hname : HasNoDot name) :
    Text.splitString '.' (joinPath parent name) = pathNames parent ++ [name] := by
  rw [joinPath, pathNames]
  by_cases hparent : parent.isEmpty = true
  · rw [if_pos hparent, if_pos hparent, Text.splitString_of_not_mem hname, List.nil_append]
  · rw [if_neg hparent, if_neg hparent, Text.splitString_dot, Text.splitString_of_not_mem hname]

private theorem pathNames_joinPath (hname : HasNoDot name) (hne : name ≠ "") :
    pathNames (joinPath parent name) = pathNames parent ++ [name] := by
  have hjoin : (joinPath parent name).isEmpty ≠ true := by
    rw [ne_eq, String.isEmpty_iff, joinPath]
    by_cases hparent : parent.isEmpty = true
    · rw [if_pos hparent]
      exact hne
    · rw [if_neg hparent]
      intro h
      exact hne (String.append_eq_empty_iff.mp h).2
  rw [pathNames, if_neg hjoin, splitString_joinPath hname]

end Paths

namespace Schema

variable (s : Schema)

/-- A type is declared by the name of another type that the schema defines. -/
def IsReference (t : SchemaType) : Prop :=
  match t.nonNull with
  | .named name => FieldType.ofPrimitive? name = none ∧ (s.findNamed? name).isSome = true
  | _ => False

/-- Nothing is known of a type: it has neither a primitive type's name nor that of a definition, or
it is a node of an unknown kind. -/
def IsUnknown (t : SchemaType) : Prop :=
  match t.nonNull with
  | .named name => FieldType.ofPrimitive? name = none ∧ s.findNamed? name = none
  | .union _ => False
  | .node n => n.kind ≠ "array" ∧ n.kind ≠ "record" ∧ FieldType.ofPrimitive? n.kind = none

/-- A path is declared, and the type with which it is offered is the one that it has; where nothing
is known of it, a string is offered. What is offered for a reference is left open. -/
def OffersTyped (path : String) (u : FieldType) : Prop :=
  ∃ t, s.typeAt? path = some t ∧ (¬ s.IsReference t →
    s.fieldTypeAt? path = some u ∧ ¬ s.IsUnknown t ∨
      s.fieldTypeAt? path = none ∧ u = .string ∧ s.IsUnknown t)

/-- A part of an array is offered as an array. Its path is declared, and it has that type exactly
when it is a record or an array. -/
def OffersPart (path : String) (u : FieldType) : Prop :=
  u = .array ∧ ∃ t, s.typeAt? path = some t ∧ (s.fieldTypeAt? path = some .array ↔
    ∃ n, s.resolve t = .node n ∧ (n.kind = "array" ∨ n.kind = "record"))

variable {s} {t u items : SchemaType} {f leaf : SchemaField}
  {fields start : List SchemaField} {name parent path : String} {o : FieldOption}

section Leaves

/-- What a field is opened down to is declared at its path, from where the path begins. -/
theorem typeAlong?_of_opensTo (hs : s.validate = .ok ()) (hplain : s.HasPlainNames)
    (h : f.OpensTo parent path leaf) (hrecord : s.IsRecord fields) (hf : f ∈ fields)
    (halong : s.fieldsAlong? start (pathNames parent) = some fields) :
    s.typeAlong? start (Text.splitString '.' path) = some leaf.type ∧
      leaf.type.nonNull.recordFields? = none := by
  -- each record that is opened is one step further from the start, so the fields vary
  induction h generalizing fields with
  | @self parent f hleaf =>
    obtain ⟨hnames, hdots⟩ := hplain fields hrecord
    rw [splitString_joinPath (hdots f hf), typeAlong?_append (List.cons_ne_nil _ _), halong,
      Option.bind_some, typeAlong?, fieldIn?_eq_some hnames hf]
    exact ⟨rfl, hleaf⟩
  | @within parent path f g leaf inner hfields hg _ ih =>
    obtain ⟨hnames, hdots⟩ := hplain fields hrecord
    have hinner : s.IsRecord inner :=
      Or.inr ⟨f.type.nonNull, .trans f.type.isPart_nonNull (hrecord.hasPart hf), hfields⟩
    apply ih hinner hg
    rw [pathNames_joinPath (hdots f hf) (hrecord.name_ne hs hf), fieldsAlong?_concat, halong,
      Option.bind_some]
    exact fieldsBelow?_of_record (fieldIn?_eq_some hnames hf) hfields

/-- A field that is opened from the root is declared. -/
theorem typeAt?_of_opensTo (hs : s.validate = .ok ()) (hplain : s.HasPlainNames)
    (hf : f ∈ s.fields) (h : f.OpensTo "" path leaf) :
    s.typeAt? path = some leaf.type ∧ leaf.type.nonNull.recordFields? = none :=
  typeAlong?_of_opensTo hs hplain h (Or.inl rfl) hf rfl

end Leaves

section Types

private theorem isUnknown_iff : s.IsUnknown t ↔
    (∃ name, t.nonNull = .named name ∧ FieldType.ofPrimitive? name = none ∧
      s.findNamed? name = none) ∨
    ∃ n, t.nonNull = .node n ∧ n.kind ≠ "array" ∧ n.kind ≠ "record" ∧
      FieldType.ofPrimitive? n.kind = none := by
  rw [IsUnknown]
  cases t.nonNull with
  | named name => simp
  | union branches => simp
  | node n => simp

private theorem IsUnknown.simpleType_eq (h : s.IsUnknown t) : t.nonNull.simpleType = .string := by
  rcases isUnknown_iff.mp h with ⟨name, hname, hprimitive, -⟩ | ⟨n, hn, hkind⟩
  · rw [hname]
    simp [SchemaType.simpleType, SchemaType.nonNull, hprimitive]
  · rw [hn]
    simp [SchemaType.simpleType, SchemaType.nonNull, hkind]

private theorem IsUnknown.resolve_eq (h : s.IsUnknown t) : s.resolve t = t.nonNull := by
  rcases isUnknown_iff.mp h with ⟨name, hname, hprimitive, hfound⟩ | ⟨n, hn, -⟩
  · rw [resolve, hname]
    simp [hprimitive, hfound]
  · exact (resolve_of_node hn).trans hn.symm

private theorem IsUnknown.not_means (h : s.IsUnknown t) {behindArray : Prop} {v : FieldType} :
    ¬ (s.resolve t).Means behindArray v := by
  rw [h.resolve_eq]
  intro hmeans
  rcases isUnknown_iff.mp h with ⟨name, hname, hprimitive, -⟩ | ⟨n, hn, harray, hrecord, hprimitive⟩
  · rw [hname] at hmeans
    cases hmeans with
    | named h => exact Option.some_ne_none v (h.symm.trans hprimitive)
  · rw [hn] at hmeans
    cases hmeans with
    | primitive h => exact Option.some_ne_none v (h.symm.trans hprimitive)
    | array h => exact harray h
    | records h => exact hrecord h
    | record h => exact hrecord h

private theorem IsUnknown.fieldTypeAt?_eq_none (h : s.IsUnknown t) (ht : s.typeAt? path = some t) :
    s.fieldTypeAt? path = none := by
  apply Option.eq_none_iff_forall_ne_some.mpr
  intro v hv
  exact h.not_means ((fieldTypeAt?_iff_means ht).mp hv)

private theorem means_simpleType (hfault : t.IsFaultless) (hleaf : t.nonNull.recordFields? = none)
    (href : ¬ s.IsReference t) (hknown : ¬ s.IsUnknown t) {behindArray : Prop} :
    (s.resolve t).Means behindArray t.nonNull.simpleType := by
  have hunion := hfault.isUnion_nonNull
  have hfault' : t.nonNull.IsFaultless := hfault.of_isPart t.isPart_nonNull
  rw [IsReference] at href
  rw [IsUnknown] at hknown
  cases hnonNull : t.nonNull with
  | union branches =>
    rw [hnonNull] at hunion
    cases hunion
  | named name =>
    rw [hnonNull] at href hknown
    cases hname : FieldType.ofPrimitive? name with
    | some v =>
      rw [resolve, hnonNull]
      simp only [hname, Option.isSome_some, if_true, SchemaType.simpleType, SchemaType.nonNull,
        Option.getD_some]
      exact .named hname
    | none =>
      cases hfound : s.findNamed? name with
      | some u => exact absurd ⟨hname, by rw [hfound, Option.isSome_some]⟩ href
      | none => exact absurd ⟨hname, hfound⟩ hknown
  | node n =>
    rw [hnonNull] at hfault' hleaf hknown
    rw [resolve_of_node hnonNull]
    have hrecord := hfault'.kind_ne_record hleaf
    by_cases harray : n.kind = "array"
    · simp only [SchemaType.simpleType, SchemaType.nonNull, if_pos harray]
      exact .array harray
    · cases hkind : FieldType.ofPrimitive? n.kind with
      | none => exact absurd ⟨harray, hrecord, hkind⟩ hknown
      | some v =>
        simp only [SchemaType.simpleType, SchemaType.nonNull, if_neg harray, if_neg hrecord, hkind,
          Option.getD_some]
        exact .primitive hkind

/-- The type that is seen of a field that is no record is the one that its path has; where nothing
is known of it, a string is seen. -/
theorem offersTyped_simpleType (hs : s.validate = .ok ()) (ht : s.typeAt? path = some t)
    (hleaf : t.nonNull.recordFields? = none) : s.OffersTyped path t.nonNull.simpleType := by
  have hpart : s.HasPart t := IsRecord.hasPart_of_typeAlong? (Or.inl rfl) ht
  refine ⟨t, ht, fun href ↦ ?_⟩
  by_cases hunknown : s.IsUnknown t
  · exact Or.inr ⟨hunknown.fieldTypeAt?_eq_none ht, hunknown.simpleType_eq, hunknown⟩
  · have hfault := isFaultless_of_validate hs hpart
    exact Or.inl ⟨(fieldTypeAt?_iff_means ht).mpr (means_simpleType hfault hleaf href hunknown),
      hunknown⟩

end Types

section Options

/-- The option of a field that is no record, below some path. -/
def IsLeafOption (f : SchemaField) (parent : String) (o : FieldOption) : Prop :=
  ∃ leaf, f.OpensTo parent o.label leaf ∧ o.type = leaf.type.nonNull.simpleType

/-- The option of a catalog in an array of catalogs, below some path. -/
def IsPartOption (s : Schema) (f : SchemaField) (parent : String) (o : FieldOption) : Prop :=
  o.type = .array ∧ ∃ path leaf, f.OpensTo parent path leaf ∧
    ∃ items fields c, leaf.type.nonNull.arrayItems? = some items ∧
      (s.resolve items).recordFields? = some fields ∧ c ∈ fields ∧ o.label = path ++ "." ++ c.name

private theorem IsLeafOption.within (hfields : f.type.nonNull.recordFields? = some fields)
    {g : SchemaField} (hg : g ∈ fields) (h : IsLeafOption g (joinPath parent f.name) o) :
    IsLeafOption f parent o := by
  obtain ⟨leaf, hopens, htype⟩ := h
  exact ⟨leaf, .within hfields hg hopens, htype⟩

private theorem IsPartOption.within (hfields : f.type.nonNull.recordFields? = some fields)
    {g : SchemaField} (hg : g ∈ fields) (h : s.IsPartOption g (joinPath parent f.name) o) :
    s.IsPartOption f parent o := by
  obtain ⟨htype, path, leaf, hopens, hpart⟩ := h
  exact ⟨htype, path, leaf, .within hfields hg hopens, hpart⟩

private theorem isOption_of_mem_arrayOptions (hleaf : f.type.nonNull.recordFields? = none)
    (hitems : f.type.nonNull.arrayItems? = some items) {group : String}
    (ho : o ∈ arrayOptions (joinPath parent f.name) f.name group (s.resolve items)) :
    o.parentArray = none ∧ IsLeafOption f parent o ∨
      o.parentArray ≠ none ∧ s.IsPartOption f parent o := by
  obtain ⟨n, hn, hkind, -⟩ := SchemaType.arrayItems?_eq_some_iff.mp hitems
  have harray : f.type.nonNull.simpleType = .array := by
    rw [hn]
    simp only [SchemaType.simpleType, SchemaType.nonNull, if_pos hkind]
  rw [arrayOptions] at ho
  split at ho
  · next fields hfields =>
    split at ho
    · obtain ⟨c, hc, rfl⟩ := List.mem_map.mp ho
      exact Or.inr ⟨Option.some_ne_none _, rfl, _, f, .self hleaf, items, fields, c, hitems,
        hfields, hc, rfl⟩
    · rw [List.mem_singleton.mp ho]
      exact Or.inl ⟨rfl, f, .self hleaf, harray.symm⟩
  · rw [List.mem_singleton.mp ho]
    exact Or.inl ⟨rfl, f, .self hleaf, harray.symm⟩

/-- The options of a field are those of what it is opened down to. -/
theorem isOption_of_mem_fieldOptions (ho : o ∈ s.fieldOptions parent f) :
    o.parentArray = none ∧ IsLeafOption f parent o ∨
      o.parentArray ≠ none ∧ s.IsPartOption f parent o := by
  fun_induction Schema.fieldOptions s parent f with
  | case1 parent f path fields hfields ih =>
    obtain ⟨g, -, ho⟩ := List.mem_flatMap.mp ho
    cases ih g.1 g.2 ho with
    | inl h => exact Or.inl ⟨h.1, h.2.within hfields g.2⟩
    | inr h => exact Or.inr ⟨h.1, h.2.within hfields g.2⟩
  | case2 parent f path t group hleaf items hitems =>
    exact isOption_of_mem_arrayOptions hleaf hitems ho
  | case3 parent f path t group hleaf hitems =>
    rw [List.mem_singleton.mp ho]
    exact Or.inl ⟨rfl, f, .self hleaf, rfl⟩

private theorem isLeafOption_of_mem_elementOptions (ho : o ∈ elementOptions parent f) :
    IsLeafOption f parent o := by
  fun_induction elementOptions parent f with
  | case1 parent f path fields hfields ih =>
    obtain ⟨g, -, ho⟩ := List.mem_flatMap.mp ho
    exact (ih g.1 g.2 ho).within hfields g.2
  | case2 parent f path t hleaf =>
    rw [List.mem_singleton.mp ho]
    exact ⟨f, .self hleaf, rfl⟩

/-- The options inside the elements of an array are those of the fields of its items. -/
theorem exists_of_mem_elementOptionsAt {array : String} (ho : o ∈ s.elementOptionsAt array) :
    ∃ t items inner, s.typeAt? array = some t ∧ t.nonNull.arrayItems? = some items ∧
      (s.resolve items).recordFields? = some inner ∧ ∃ f ∈ inner, IsLeafOption f "" o := by
  rw [elementOptionsAt, List.mem_mergeSort] at ho
  obtain ⟨f, hf, ho⟩ := List.mem_flatMap.mp ho
  have hleaf := isLeafOption_of_mem_elementOptions ho
  cases htype : s.typeAt? array with
  | none =>
    rw [htype] at hf
    cases hf
  | some t =>
    cases hitems : t.nonNull.arrayItems? with
    | none => simp [htype, hitems] at hf
    | some items =>
      cases hrecord : (s.resolve items).recordFields? with
      | none => simp [htype, hitems, hrecord] at hf
      | some inner =>
        simp only [htype, hitems, hrecord, Option.bind_eq_bind, Option.bind_some,
          Option.getD_some] at hf
        exact ⟨t, items, inner, rfl, hitems, hrecord, f, hf, hleaf⟩

end Options

section Offers

private theorem ofPrimitive?_ne_array : FieldType.ofPrimitive? name ≠ some .array := by
  unfold FieldType.ofPrimitive?
  split <;> decide

/-- Behind an array, what is an array is a record or an array by its kind. -/
theorem means_array_iff {behindArray : Prop} (hbehind : behindArray) :
    u.Means behindArray .array ↔ ∃ n, u = .node n ∧ (n.kind = "array" ∨ n.kind = "record") := by
  constructor
  · intro h
    cases h with
    | named hname => exact absurd hname ofPrimitive?_ne_array
    | primitive hkind => exact absurd hkind ofPrimitive?_ne_array
    | array hkind => exact ⟨_, rfl, Or.inl hkind⟩
    | records hkind => exact ⟨_, rfl, Or.inr hkind⟩
  · rintro ⟨n, rfl, hkind | hkind⟩
    · exact .array hkind
    · exact .records hkind hbehind

/-- An option of the whole schema is offered with the type of its path. -/
theorem offersTyped_of_isLeafOption (hs : s.validate = .ok ()) (hplain : s.HasPlainNames)
    (hf : f ∈ s.fields) (ho : IsLeafOption f "" o) : s.OffersTyped o.label o.type := by
  obtain ⟨leaf, hopens, htype⟩ := ho
  obtain ⟨hpath, hleaf⟩ := typeAt?_of_opensTo hs hplain hf hopens
  rw [htype]
  exact offersTyped_simpleType hs hpath hleaf

/-- An option of a catalog is offered as an array. -/
theorem offersPart_of_isPartOption (hs : s.validate = .ok ()) (hplain : s.HasPlainNames)
    (hf : f ∈ s.fields) (ho : s.IsPartOption f "" o) : s.OffersPart o.label o.type := by
  obtain ⟨htype, path, leaf, hopens, items, fields, c, hitems, hfields, hc, hlabel⟩ := ho
  obtain ⟨hpath, -⟩ := typeAt?_of_opensTo hs hplain hf hopens
  have hpart : s.HasPart leaf.type := IsRecord.hasPart_of_typeAlong? (Or.inl rfl) hpath
  obtain ⟨hnames, hdots⟩ := hplain fields (.of_items hpart hitems hfields)
  have hdeclared : s.typeAt? o.label = some c.type := by
    rw [hlabel, typeAt?_below hpath hitems hfields, Text.splitString_of_not_mem (hdots c hc),
      typeAlong?, fieldIn?_eq_some hnames hc, Option.map_some]
  have hbehind : s.PassesArray o.label := hlabel ▸ passesArray_below hpath hitems
  exact ⟨htype, c.type, hdeclared,
    (fieldTypeAt?_iff_means hdeclared).trans (means_array_iff hbehind)⟩

end Offers

/-- The fields that are offered in a valid schema with plain names are declared, and they are
offered with the types that they have. This is so of the whole schema and of the elements of any
array; a part of an array is offered as an array, whatever it is. -/
theorem options_typed (hs : s.validate = .ok ()) (hplain : s.HasPlainNames) :
    (∀ o ∈ s.options, (o.parentArray = none → s.OffersTyped o.label o.type) ∧
      (o.parentArray ≠ none → s.OffersPart o.label o.type)) ∧
    ∀ array, ∀ o ∈ s.elementOptionsAt array, s.OffersTyped (array ++ "." ++ o.label) o.type := by
  constructor
  · intro o ho
    obtain ⟨f, hf, ho⟩ := List.mem_flatMap.mp ho
    cases isOption_of_mem_fieldOptions ho with
    | inl h =>
      exact ⟨fun _ ↦ offersTyped_of_isLeafOption hs hplain hf h.2, fun hsome ↦ absurd h.1 hsome⟩
    | inr h =>
      exact ⟨fun hnone ↦ absurd hnone h.1, fun _ ↦ offersPart_of_isPartOption hs hplain hf h.2⟩
  · intro array o ho
    obtain ⟨t, items, inner, harray, hitems, hrecord, f, hf, leaf, hopens, htype⟩ :=
      exists_of_mem_elementOptionsAt ho
    have hpart : s.HasPart t := IsRecord.hasPart_of_typeAlong? (Or.inl rfl) harray
    obtain ⟨hpath, hleaf⟩ := typeAlong?_of_opensTo hs hplain hopens
      (.of_items hpart hitems hrecord) hf rfl
    rw [← typeAt?_below harray hitems hrecord] at hpath
    rw [htype]
    exact offersTyped_simpleType hs hpath hleaf

/-- A number or nothing. -/
def optionalNumber : SchemaType := .union [.named "null", .named "double"]

/-- The catalogs that an object is looked up in. -/
def catalogs : SchemaNode := ⟨"record", some "Catalogs", some [⟨"z", optionalNumber, none⟩], none⟩

/-- An array with an entry for each match. -/
def matchArray : SchemaType := .node ⟨"array", none, none, some (.node catalogs)⟩

/-- A schema with matches, a field of a type that nothing is known of, and one of a named type. -/
def crossed : Schema :=
  .ofFields [⟨"uid", .named "uuid", none⟩, ⟨"cross", matchArray, none⟩,
    ⟨"best", .named "Catalogs", none⟩]

private theorem crossed_hasPart_iff : crossed.HasPart t ↔ t = .named "uuid" ∨ t = matchArray ∨
    t = .node catalogs ∨ t = optionalNumber ∨ t = .named "null" ∨ t = .named "double" ∨
      t = .named "Catalogs" := by
  simp [HasPart, crossed, ofFields, matchArray, catalogs, optionalNumber,
    SchemaType.isPart_node_iff, SchemaType.isPart_union_iff, SchemaType.isPart_named_iff,
    SchemaNode.recordFields?, SchemaNode.arrayItems?, or_assoc]

private theorem crossed_hasPlainNames : crossed.HasPlainNames := by
  intro fields h
  rcases h with rfl | ⟨t, ht, hfields⟩
  · decide
  · rcases crossed_hasPart_iff.mp ht with rfl | rfl | rfl | rfl | rfl | rfl | rfl
    all_goals cases hfields
    decide

private theorem crossed_options : crossed.options =
    [.plain "uid" .string (some "Simple"),
      { FieldOption.plain "cross.z" .array (some "cross") with parentArray := some "cross" },
      .plain "best" .string (some "Simple")] := by
  have hroot : FieldOption.groupOf "" = "Simple" := rfl
  simp [hroot, options, fieldOptions, arrayOptions, crossed, ofFields, matchArray, catalogs,
    optionalNumber, SchemaType.nonNull, SchemaType.recordFields?, SchemaType.arrayItems?,
    SchemaType.node?, SchemaNode.recordFields?, SchemaNode.arrayItems?, SchemaType.isUnion,
    SchemaType.simpleType, Schema.resolve, joinPath, FieldType.ofPrimitive?]

private theorem crossed_typeAt?_cross : crossed.typeAt? "cross" = some matchArray := rfl

private theorem crossed_elementOptionsAt :
    crossed.elementOptionsAt "cross" = [.plain "z" .number none] := by
  have hfield : elementOptions "" ⟨"z", optionalNumber, none⟩ = [.plain "z" .number none] := by
    rw [elementOptions]
    rfl
  have hrecord : (crossed.resolve (.node catalogs)).recordFields? =
      some [⟨"z", optionalNumber, none⟩] := rfl
  rw [elementOptionsAt, crossed_typeAt?_cross]
  simp [matchArray, SchemaType.nonNull, SchemaType.arrayItems?, SchemaType.node?,
    SchemaNode.arrayItems?, hrecord, hfield]

/-- Fields of all sorts are offered, in the whole schema and in the elements of its array. -/
theorem crossed_options_typed : crossed.validate = .ok () ∧ crossed.HasPlainNames ∧
    crossed.OffersTyped "uid" .string ∧ crossed.OffersPart "cross.z" .array ∧
    crossed.OffersTyped "cross.z" .number := by
  have hvalid : crossed.validate = .ok () := rfl
  obtain ⟨hoptions, helements⟩ := options_typed hvalid crossed_hasPlainNames
  rw [crossed_options] at hoptions
  refine ⟨hvalid, crossed_hasPlainNames, ?_, ?_, ?_⟩
  · exact (hoptions _ List.mem_cons_self).1 rfl
  · exact (hoptions _ (List.mem_cons_of_mem _ List.mem_cons_self)).2 (Option.some_ne_none _)
  · exact helements "cross" _ (crossed_elementOptionsAt ▸ List.mem_cons_self)

private theorem crossed_node_of_name {n : SchemaNode} {name : String}
    (hn : crossed.Searches (.node n)) (hname : n.name = some name) :
    n = catalogs ∧ name = "Catalogs" := by
  rcases crossed_hasPart_iff.mp hn.hasPart with h | h | h | h | h | h | h
  all_goals cases h
  · cases hname
  · exact ⟨rfl, (Option.some.inj hname).symm⟩

private theorem crossed_isUnknown : crossed.IsUnknown (.named "uuid") := by
  refine ⟨rfl, Option.not_isSome_iff_eq_none.mp ?_⟩
  rw [isSome_findNamed?_iff]
  rintro ⟨n, hn, hname⟩
  exact absurd (crossed_node_of_name hn hname).2 (by decide)

private theorem crossed_resolve : crossed.resolve (.named "Catalogs") = .node catalogs := by
  have hsearched : crossed.Searches (.node catalogs) :=
    ⟨⟨"cross", matchArray, none⟩, List.mem_cons_of_mem _ List.mem_cons_self, .items rfl (.here rfl)⟩
  obtain ⟨t, ht⟩ := Option.isSome_iff_exists.mp (isSome_findNamed?_iff.mpr ⟨_, hsearched, rfl⟩)
  obtain ⟨hfound, n, rfl, hname⟩ := searches_of_findNamed? ht
  rw [resolve_named rfl, ht, Option.getD_some, (crossed_node_of_name hfound hname).1]

/-- A string is offered where nothing is known and for a record that is declared by its name, and an
array where there is a number. -/
theorem crossed_options_mistyped : crossed.validate = .ok () ∧ crossed.HasPlainNames ∧
    (∃ o ∈ crossed.options, o.parentArray = none ∧
      o.type = .string ∧ crossed.fieldTypeAt? o.label = none) ∧
    (∃ o ∈ crossed.options, o.parentArray = none ∧
      o.type = .string ∧ crossed.fieldTypeAt? o.label = some .object) ∧
    ∃ o ∈ crossed.options, o.parentArray ≠ none ∧
      o.type = .array ∧ crossed.fieldTypeAt? o.label = some .number := by
  have hbest : crossed.fieldTypeAt? "best" = some .object := by
    have hdeclared : crossed.typeAt? "best" = some (.named "Catalogs") := rfl
    rw [fieldTypeAt?_iff_means hdeclared, crossed_resolve]
    exact .record rfl fun h ↦ not_passesArrayAlong_singleton (passesArray_iff.mp h)
  rw [crossed_options]
  refine ⟨rfl, crossed_hasPlainNames, ?_, ?_, ?_⟩
  · exact ⟨_, List.mem_cons_self, rfl, rfl, crossed_isUnknown.fieldTypeAt?_eq_none rfl⟩
  · exact ⟨_, List.mem_cons_of_mem _ (List.mem_cons_of_mem _ List.mem_cons_self), rfl, rfl, hbest⟩
  · exact ⟨_, List.mem_cons_of_mem _ List.mem_cons_self, Option.some_ne_none _, rfl, rfl⟩

end Schema

end FilterPipeline
