import FilterPipeline.Proofs.PlacedProjections

/-!
# What the projection computes from

The projection computes list variables and negated named blocks, and none of what it computes can be
seen from there. Main statement: for a valid catalog, in which no variable leads back to itself,
whatever is computed refers to fields that the schema has, and so to no list variable by its name.
The check of the catalog does not see all circles of arithmetic variables, and with such a circle
a projection can refer to a list variable.
-/

namespace FilterPipeline

open Relation Json

private theorem ListVariable.beginsWith_dollar_of_validate {v : ListVariable}
    (h : v.validate = .ok ()) :
    beginsWith "$" v.key = false := by
  rw [Bool.eq_false_iff, ne_eq, beginsWith_dollar_iff]
  rintro ⟨cs, hcs⟩
  have := List.all_eq_true.mp (of_validate h).2.1 '$' (by rw [hcs]; exact List.mem_cons_self)
  revert this
  decide

namespace Schema

variable {s : Schema}

private theorem isSome_typeAlong?_of_append {parts rest : List String} (hparts : parts ≠ [])
    {fields : List SchemaField} (h : (s.typeAlong? fields (parts ++ rest)).isSome = true) :
    (s.typeAlong? fields parts).isSome = true := by
  induction parts generalizing fields with
  | nil => exact absurd rfl hparts
  | cons name parts ih =>
    cases parts with
    | nil =>
      cases rest with
      | nil => simpa using h
      | cons r rest =>
        simp only [List.cons_append, List.nil_append, typeAlong?, Option.bind_eq_bind] at h ⊢
        cases hf : fieldIn? fields name with
        | none => simp [hf] at h
        | some f => rfl
    | cons name' parts =>
      simp only [List.cons_append, typeAlong?, Option.bind_eq_bind] at h ⊢
      cases hf : fieldIn? fields name with
      | none => simp [hf] at h
      | some f =>
        simp only [hf, Option.bind_some] at h ⊢
        cases hr : (s.throughItems (s.resolve f.type)).recordFields? with
        | none => simp [hr] at h
        | some inner =>
          rw [hr, Option.bind_some] at h
          exact ih (List.cons_ne_nil _ _) h

private theorem isSome_typeAt?_of_leadsTo {a path : String} (h : LeadsTo a path)
    (hpath : (s.typeAt? path).isSome = true) : (s.typeAt? a).isSome = true := by
  rcases h with rfl | ⟨rest, rfl⟩
  · exact hpath
  · rw [typeAt?, Text.splitString_dot] at hpath
    exact isSome_typeAlong?_of_append (Text.splitString_ne_nil '.' a) hpath

/-- A path has a type in the schema or stands below one that has. -/
def Stores (s : Schema) (path : String) : Prop :=
  ∃ base, (s.typeAt? base).isSome = true ∧ LeadsTo base path

end Schema

/-- The conditions of the negated named blocks of a filter, outside of element predicates. -/
def negatedConditions (blocks : List Block) : List Condition :=
  (blocks.flatMap Block.negatedBlocks).flatMap Block.ownConditions

namespace Context

variable (ctx : Context)

/-- A string refers to nothing, to an element at hand, or to a path that the schema stores. -/
def ReadsStored (s : String) : Prop :=
  ∀ path ∈ rootPath? s, path = "" ∨ ctx.schema.Stores path

/-- A list variable is written out in the projection: the filter uses it, a condition in a negated
named block names it, or the element predicate of such a list variable leads to it. -/
def WritesOutInProjection (blocks : List Block) (name : String) : Prop :=
  ∃ a ∈ (ctx.usage blocks).listVariables ++ (blocks.flatMap Block.negatedBlocks).flatMap
      fun b ↦ b.elementConditions.flatMap ctx.generator.namedLists,
    ReflTransGen (Refers ctx.generator.definitionNames) a name

/-- What the projection of a filter is computed from has a type in the schema: the fields and arrays
in negated named blocks, the paths at the leaves of formulas there, and the arrays of list
variables. -/
structure ComputesFromTyped (blocks : List Block) : Prop where
  field : ∀ c ∈ negatedConditions blocks, ∀ path ∈ c.fieldName?,
    (ctx.resolver.classify path).isBase = true → (ctx.schema.typeAt? path).isSome = true
  array : ∀ c ∈ negatedConditions blocks, ∀ d ∈ c.operand.list?, ∀ path ∈ d.arrayPath?,
    (ctx.schema.typeAt? path).isSome = true
  leaf : ∀ c ∈ negatedConditions blocks, ∀ path ∈ ctx.generator.formulaLeaves c,
    (ctx.resolver.classify path).isBase = true → (ctx.schema.typeAt? path).isSome = true
  listed : ∀ name, ctx.WritesOutInProjection blocks name → ∀ v,
    ctx.catalog.list? name = some v → ∀ path ∈ v.condition.arrayPath?,
      (ctx.schema.typeAt? path).isSome = true

/-- The formulas in negated named blocks name no quantifiers and no filters. -/
def NamesAggregates (blocks : List Block) : Prop :=
  ∀ c ∈ negatedConditions blocks, ∀ leaf ∈ ctx.generator.formulaLeaves c,
    ∀ v ∈ ctx.catalog.list? leaf, ∀ l ∈ v.operator?, l.entersElements = false

variable {ctx} {blocks : List Block}

/-- A path that a valid catalog's schema stores is not below a list variable. -/
theorem not_leadsTo_of_stores (hvalid : ctx.catalog.validate ctx.schema = .ok ()) {path : String}
    (hpath : ctx.schema.Stores path) {v : ListVariable} (hv : v ∈ ctx.catalog.lists) :
    ¬ LeadsTo v.key path := by
  intro hkey
  obtain ⟨base, htype, hbase⟩ := hpath
  obtain ⟨hfault, hnone⟩ := Catalog.validate_of_mem hvalid hv
  have hleads : LeadsTo v.key base := by
    rcases hbase.total hkey with h | h
    · rcases h with rfl | h
      · exact Or.inl rfl
      · exact absurd h (ListVariable.hasNoDot_of_validate hfault).not_isAncestor
    · exact h
  have := Schema.isSome_typeAt?_of_leadsTo hleads htype
  rw [hnone] at this
  cases this

/-- What refers to stored paths only is a rule on references. -/
theorem isPlaceRule_readsStored : IsPlaceRule fun _ ↦ ctx.ReadsStored where
  plain _ s hs path hpath := by
    rw [rootPath?_eq_none hs] at hpath
    cases hpath
  dollar _ path hpath := by
    have hempty : rootPath? "$" = some "" := by decide
    rw [hempty] at hpath
    exact Or.inl (Option.some.inj hpath).symm
  element s hs path hpath := by
    obtain ⟨rest, rfl⟩ := beginsWith_iff.mp hs
    have hdollars : "$$this" ++ rest = "$$" ++ ("this" ++ rest) := by
      rw [← String.append_assoc]
      rfl
    rw [hdollars, rootPath?_dollars] at hpath
    cases hpath

/-- The reference to a stored path, with something behind it or not, refers to a stored path. -/
theorem readsStored_reference {path suffix : String} (hplain : beginsWith "$" path = false)
    (hsuffix : beginsWith "$" suffix = false) (hstored : ctx.schema.Stores (path ++ suffix)) :
    ctx.ReadsStored (Scope.document.reference path ++ suffix) := by
  have h : (Json.str (Scope.document.reference path ++ suffix)).ExprReads ctx.schema.Stores :=
    Scope.exprReads_reference hplain hsuffix fun _ ↦ hstored
  exact fun p hp ↦ Or.inr (exprReads_str_iff.mp h p hp)

/-- The reference to a path with a type refers to a stored path. -/
theorem readsStored_of_typed {path : String} (hplain : beginsWith "$" path = false)
    (htype : (ctx.schema.typeAt? path).isSome = true) :
    ctx.ReadsStored (Scope.document.reference path) := by
  have h : ctx.ReadsStored (Scope.document.reference path ++ "") :=
    readsStored_reference hplain rfl ⟨path, htype, Or.inl (String.append_empty).symm⟩
  rwa [String.append_empty] at h

/-- References to an array with a type, and below it, refer to stored paths. -/
theorem arrayKeeps_of_typed {d : ListCondition} (hd : d.IsPlain) {inside : Bool}
    (htype : ∀ path ∈ d.arrayPath?, (ctx.schema.typeAt? path).isSome = true) :
    ListQuery.ArrayKeeps (fun _ ↦ ctx.ReadsStored) .document inside d where
  reference path hpath := readsStored_of_typed (hd.array path hpath) (htype path hpath)
  subField path hpath sub _ := by
    rw [String.append_assoc]
    have hempty : beginsWith "$" "" = false := rfl
    have hdot : beginsWith "$" ("." ++ sub) = false := beginsWith_dollar_below hempty sub
    refine readsStored_reference (hd.array path hpath) hdot
      ⟨path, htype path hpath, Or.inr ⟨sub, ?_⟩⟩
    rw [String.append_assoc]

section Valid

variable (hvalid : ctx.catalog.validate ctx.schema = .ok ())
  (hloops : ∀ name, ¬ TransGen (ctx.resolver.Mentions ctx.readFormula) name name)

include hvalid hloops

/-- In a valid catalog without circles every arithmetic variable is inlined, down to paths and list
variables. -/
theorem exists_expand?_of_validate {name : String} {v : ArithmeticVariable}
    (hv : ctx.resolver.classify name = .arithmetic v) :
    ∃ t, ctx.resolver.expand? ctx.readFormula name = some t ∧
      ∀ leaf ∈ t.fields, ¬ ∃ w, ctx.resolver.classify leaf = .arithmetic w := by
  obtain ⟨t, ht, hplain, -⟩ := expansion_complete_iff hvalid (Resolver.arithmetic?_of_classify hv)
  exact ⟨t, ht, hplain.mpr fun a _ ↦ hloops a⟩

private theorem classify_of_mem_formulaLeaves (haggregates : ctx.NamesAggregates blocks)
    {c : Condition} (hc : c ∈ negatedConditions blocks) {leaf : String}
    (hleaf : leaf ∈ ctx.generator.formulaLeaves c) :
    ctx.resolver.classify leaf = .base ∨
      ∃ v a, ctx.resolver.classify leaf = .list v (.aggregate a) := by
  obtain ⟨field, -, v, t, hv, ht, hmem⟩ := Generator.mem_formulaLeaves_iff.mp hleaf
  cases hkind : ctx.resolver.classify leaf with
  | base => exact Or.inl rfl
  | arithmetic w =>
    obtain ⟨t', ht', hnone⟩ := exists_expand?_of_validate hvalid hloops hv
    obtain rfl : t' = t := Option.some.inj (ht'.symm.trans ht)
    exact absurd ⟨w, hkind⟩ (hnone leaf hmem)
  | list v l =>
    obtain ⟨hlist, hop⟩ := Resolver.classify_eq_list_iff.mp hkind
    have henters := haggregates c hc leaf hleaf v hlist l hop
    cases l with
    | aggregate a => exact Or.inr ⟨v, a, rfl⟩
    | quantifier k => cases henters
    | filter => cases henters

end Valid

private theorem mem_allConditions_of_negatedBlock {b : Block} {c : Condition}
    (hb : b ∈ blocks.flatMap Block.negatedBlocks) (hc : c ∈ b.elementConditions) :
    c ∈ ctx.allConditions blocks := by
  obtain ⟨root, hroot, hmem⟩ := List.mem_flatMap.mp hb
  exact List.mem_append_left _
    (List.mem_flatMap.mpr ⟨root, hroot, Block.negatedBlocks_subset root hmem hc⟩)

private theorem writesOutInProjection_of_named {b : Block} {c : Condition} {name : String}
    (hb : b ∈ blocks.flatMap Block.negatedBlocks) (hc : c ∈ b.elementConditions)
    (hname : name ∈ ctx.generator.namedLists c) : ctx.WritesOutInProjection blocks name :=
  ⟨name, List.mem_append_right _
    (List.mem_flatMap.mpr ⟨b, hb, List.mem_flatMap.mpr ⟨c, hc, hname⟩⟩), .refl⟩

section Projection

variable (hvalid : ctx.catalog.validate ctx.schema = .ok ())
  (hloops : ∀ name, ¬ TransGen (ctx.resolver.Mentions ctx.readFormula) name name)
  (hplain : ctx.IsDollarless blocks) (htyped : ctx.ComputesFromTyped blocks)
  (haggregates : ctx.NamesAggregates blocks)

include hplain htyped in
/-- What a list variable is written out as in the projection refers to stored paths. -/
theorem variableKeeps_readsStored {name : String} (hn : ctx.WritesOutInProjection blocks name)
    {v : ListVariable} (hv : ctx.catalog.list? name = some v) :
    ctx.generator.VariableKeeps (fun _ ↦ ctx.ReadsStored) v := by
  refine hplain.variableKeeps (L := ctx.WritesOutInProjection blocks) isPlaceRule_readsStored ?_ ?_
    name hn v hv
  · rintro name ⟨a, ha, hchain⟩ b hb
    exact ⟨a, ha, hchain.tail hb⟩
  · intro name hn v hv inside
    exact arrayKeeps_of_typed (hplain.lists v (Catalog.mem_of_list? hv))
      (htyped.listed name hn v hv)

include hvalid hloops hplain htyped haggregates

private theorem documentKeeps_readsStored {c : Condition} (hc : c ∈ negatedConditions blocks) :
    ctx.generator.DocumentKeeps (fun _ ↦ ctx.ReadsStored) c := by
  obtain ⟨b, hb, hown⟩ := List.mem_flatMap.mp hc
  have hsubset := Block.ownConditions_subset b hown
  have hconditions : ∀ c' ∈ c :: c.operand.elementConditions, c' ∈ ctx.allConditions blocks :=
    fun c' hc' ↦ mem_allConditions_of_negatedBlock hb (hsubset hc')
  have hdollarless := hplain.conditions c (hconditions c List.mem_cons_self)
  refine hplain.documentKeeps hconditions ?_ ?_ ?_ ?_
  · exact fun c' hc' name hname v hv ↦ variableKeeps_readsStored hplain htyped
      (writesOutInProjection_of_named hb (hsubset hc') hname) hv
  · exact fun d hd ↦ arrayKeeps_of_typed (hdollarless.list d hd) (htyped.array c hc d hd)
  · intro field hf hlist hexpand
    refine readsStored_of_typed (hdollarless.field field hf) (htyped.field c hc field hf ?_)
    cases hkind : ctx.resolver.classify field with
    | base => rfl
    | list v l => exact absurd hkind (hlist v l)
    | arithmetic v =>
      obtain ⟨t, ht, -⟩ := exists_expand?_of_validate hvalid hloops hkind
      exact absurd (hexpand.symm.trans ht) (by simp)
  · intro leaf hleaf hunknown
    rcases classify_of_mem_formulaLeaves hvalid hloops haggregates hc hleaf with hbase | ⟨v, a, hv⟩
    · exact readsStored_of_typed (hplain.leaves leaf hleaf)
        (htyped.leaf c hc leaf hleaf (by rw [hbase]; rfl))
    · obtain ⟨hlist, hop⟩ := Resolver.classify_eq_list_iff.mp hv
      have harray := Generator.isSome_variableQuery? (g := ctx.generator) hop
      have hfault := (Catalog.validate_of_mem hvalid (Catalog.mem_of_list? hlist)).1
      rw [hunknown v a hv, (ListVariable.of_validate hfault).2.2] at harray
      cases harray

/-- Every string in what the projection computes refers to stored paths. -/
theorem readsStored_projection :
    ∀ m ∈ (ctx.projection blocks).members, ∀ s ∈ m.2.strings, ctx.ReadsStored s := by
  have hkeeps : ∀ m ∈ (ctx.projection blocks).members,
      (single m.1 m.2).Keeps (fun _ ↦ ctx.ReadsStored) false := by
    refine Generator.keeps_projection isPlaceRule_readsStored hplain.options
      (fun name hn v hv ↦ ⟨?_, ?_⟩) (fun n hn ↦ ⟨?_, fun c hc ↦ ?_⟩)
    · rw [← Catalog.key_of_list? hv]
      exact isTransparent_of_beginsWith (ListVariable.beginsWith_dollar_of_validate
        (Catalog.validate_of_mem hvalid (Catalog.mem_of_list? hv)).1)
    · exact variableKeeps_readsStored hplain htyped ⟨name, List.mem_append_left _ hn, .refl⟩ hv
    · exact isTransparent_of_beginsWith (Usage.isWord_of_mem_negatedBlocks hn).1.beginsWith_dollar
    · exact documentKeeps_readsStored hvalid hloops hplain htyped haggregates
        (List.mem_flatMap.mpr ⟨n.2, Usage.mem_negatedBlocks hn, hc⟩)
  intro m hm s hs
  have hstrings : s ∈ (single m.1 m.2).strings := by
    simpa [single, strings, memberStrings] using hs
  rw [← map_snd_placed "" ⟨false, false⟩] at hstrings
  obtain ⟨x, hx, rfl⟩ := List.mem_map.mp hstrings
  exact hkeeps m hm x hx

/-- What the projection computes is computed from what the schema stores, and from no list variable
by its name. In a valid catalog in which no definition leads back to itself and no arithmetic
variable does, a filter has a pipeline, and every reference to the document in what its projection
computes is one to a path with a type in the schema, or below such a path, and does not lead through
the name of a list variable. Nothing looks like a reference by itself, what the projection is
computed from has a type, and formulas name no list variables but aggregates. A lone dollar sign is
the end of a text in a pattern. -/
theorem projection_inlines_lists (hacyclic : ∀ name, ¬ TransGen ctx.resolver.Enters name name) :
    ∃ pipeline, ctx.compile? blocks = some pipeline ∧
      ∀ m ∈ pipeline.projection.getD [], ∀ s ∈ m.2.strings, ∀ path ∈ rootPath? s,
        (path = "" ∨ ctx.schema.Stores path) ∧ ∀ v ∈ ctx.catalog.lists, ¬ LeadsTo v.key path := by
  obtain ⟨pipeline, hcompile, hprojection, -⟩ := ctx.exists_compile?_eq hacyclic blocks
  refine ⟨pipeline, hcompile, fun m hm s hs path hpath ↦ ?_⟩
  rw [hprojection] at hm
  have hreads := readsStored_projection hvalid hloops hplain htyped haggregates m hm s hs path hpath
  refine ⟨hreads, fun v hv ↦ ?_⟩
  rcases hreads with rfl | hstored
  · have hlength := (ListVariable.of_validate (Catalog.validate_of_mem hvalid hv).1).1
    rintro (hkey | hkey)
    · rw [hkey] at hlength
      exact absurd hlength (by decide)
    · exact absurd hkey.length_lt (by simp)
  · exact not_leadsTo_of_stores hvalid hstored hv

end Projection

/-- The projection of the filters on `observations` computes from stored fields what rises fast. -/
theorem observationFilters_inline_lists :
    ∃ pipeline, observations.compile? observationFilters = some pipeline ∧
      ∀ m ∈ pipeline.projection.getD [], ∀ s ∈ m.2.strings, ∀ path ∈ rootPath? s,
        (path = "" ∨ observations.schema.Stores path) ∧
          ∀ v ∈ observations.catalog.lists, ¬ LeadsTo v.key path := by
  have hleaves : ∀ v ∈ observations.catalog.arithmetic, ∀ text ∈ v.formula?,
      ∀ leaf ∈ (observations.readFormula text).fields,
        ((observations.resolver.classify leaf).isBase ||
          (observations.resolver.classify leaf).isList) = true := by
    decide +kernel
  have hlists : ∀ v ∈ observations.catalog.lists, ∀ path ∈ v.condition.arrayPath?,
      (observations.schema.typeAt? path).isSome = true := by
    decide +kernel
  apply projection_inlines_lists
  · rfl
  · intro name hloop
    obtain ⟨b, -, v, text, hv, htext, hmem, w, hw⟩ := TransGen.tail'_iff.mp hloop
    have := hleaves v (Catalog.mem_of_arithmetic? hv) text htext name hmem
    rw [hw] at this
    cases this
  · exact ⟨by decide +kernel, by decide +kernel, by decide +kernel, by decide +kernel⟩
  · exact ⟨by decide +kernel, by decide +kernel, by decide +kernel,
      fun _ _ v hv ↦ hlists v (Catalog.mem_of_list? hv)⟩
  · unfold NamesAggregates
    decide +kernel
  · exact observations.resolver.acyclic_iff.mpr (by decide +kernel)

/-- A context in which an arithmetic variable with blanks around its name, which has a dot, names
itself below the list variable `low`. -/
def entwined : Context where
  schema := .ofFields
    [⟨"prv", .node ⟨"array", none, none,
      some (.node ⟨"record", some "P", some [⟨"jd", .named "double", none⟩], none⟩)⟩, none⟩,
      ⟨"objectId", .named "string", none⟩]
  catalog := ⟨[⟨" low.x ", "low.x = low.x + 1"⟩],
    [⟨"low", ⟨"prv", some (.list (.aggregate .min)), some "jd", .literal .null, none, none,
      none⟩⟩]⟩
  settings := { Settings.default with useParseCache := false }

/-- A negated block that asks for a positive `low.x`. -/
def entwinedFilter : Block where
  id := "b"
  logic := .and
  children := [.condition ⟨"c", some "low.x", some (.compare .gt), .literal (.int 1), none⟩]
  name := some "high"
  mustHold := false

/-- The check of a catalog does not see that an arithmetic variable names itself when its name has
blanks around it: the projection refers to a field below a list variable. -/
theorem entwined_reads_list : entwined.catalog.validate entwined.schema = .ok () ∧
    (∀ name, ¬ TransGen entwined.resolver.Enters name name) ∧
    entwined.IsDollarless [entwinedFilter] ∧ entwined.ComputesFromTyped [entwinedFilter] ∧
    entwined.NamesAggregates [entwinedFilter] ∧
    ∃ pipeline, entwined.compile? [entwinedFilter] = some pipeline ∧
      ∃ m ∈ pipeline.projection.getD [], ∃ s ∈ m.2.strings, ∃ path ∈ rootPath? s,
        ∃ v ∈ entwined.catalog.lists, LeadsTo v.key path := by
  have hlists : ∀ v ∈ entwined.catalog.lists, ∀ path ∈ v.condition.arrayPath?,
      (entwined.schema.typeAt? path).isSome = true := by
    decide +kernel
  have hacyclic : ∀ name, ¬ TransGen entwined.resolver.Enters name name :=
    entwined.resolver.acyclic_iff.mpr (by decide +kernel)
  have hmem : "$low.x" ∈ (entwined.projection [entwinedFilter]).members.flatMap (·.2.strings) := by
    decide +kernel
  obtain ⟨pipeline, hcompile, hprojection, -⟩ :=
    entwined.exists_compile?_eq hacyclic [entwinedFilter]
  rw [← hprojection] at hmem
  obtain ⟨m, hm, hs⟩ := List.mem_flatMap.mp hmem
  refine ⟨rfl, hacyclic,
    ⟨by decide +kernel, by decide +kernel, by decide +kernel, by decide +kernel⟩,
    ⟨by decide +kernel, by decide +kernel, by decide +kernel,
      fun _ _ v hv ↦ hlists v (Catalog.mem_of_list? hv)⟩, ?_,
    pipeline, hcompile, m, hm, _, hs, "low.x", by decide, _, List.mem_cons_self, Or.inr ⟨"x", rfl⟩⟩
  unfold NamesAggregates
  decide +kernel

end Context
end FilterPipeline
