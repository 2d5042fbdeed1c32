import FilterPipeline.Proofs.DocumentConditions
import FilterPipeline.Proofs.Inlining
import FilterPipeline.Proofs.ProjectionNames
import FilterPipeline.Proofs.Unrolling
import FilterPipeline.Proofs.WellFormedConditions

/-!
# The checker accepts what the compiler emits

The checker knows nothing of filters, and the compiler looks at no key before it emits it. Main
statement: where all conditions are well typed, and no path that is always kept begins with a dollar
sign, the checker finds no issue in the pipeline of a filter that has a stage.
-/

namespace FilterPipeline

open Relation Json

namespace Generator

variable {g : Generator} {scope : Scope} {e : Json}

private theorem IsWellFormed.listField (hg : g.IsWellFormed) {name : String}
    (he : g.listField? name = some e) : e.IsWellFormed := by
  simp only [listField?, Option.bind_eq_bind, Option.bind_eq_some_iff] at he
  obtain ⟨w, hw, l, hl, he⟩ := he
  split at he
  · cases he
  · obtain ⟨q, hq, rfl⟩ := Option.map_eq_some_iff.mp he
    exact (hg.variableQuery (Catalog.mem_of_list? hw) hq).filteredExpr
  · obtain ⟨q, -, rfl⟩ := Option.map_eq_some_iff.mp he
    exact ListQuery.isWellFormed_aggregateExpr

private theorem IsWellFormed.childrenExpr (hg : g.IsWellFormed) {b : Block}
    (h : ∀ c ∈ b.elementConditions, c.IsWellTyped g.resolver)
    (he : g.childrenExpr scope b = some e) : e.IsWellFormed := by
  obtain ⟨_, logic, children, _, _⟩ := b
  have hparts : ∀ part ∈ g.nodeExprs scope children, part.IsWellFormed :=
    hg.exprInvariant.nodes trivial children h
  exact Logic.combine_forall (hg.exprInvariant.combine _ _ hparts) hparts he

private theorem IsWellFormed.projection (hg : g.IsWellFormed) {always : List String} {usage : Usage}
    (hpaths : ∀ s ∈ usage.baseFields ++ always, ∀ path ∈ Text.trimmed? s, IsFreeKey path)
    (hlists : ∀ name ∈ usage.listVariables, IsFreeKey name)
    (hblocks : ∀ n ∈ usage.negatedBlocks,
      IsFreeKey n.1 ∧ ∀ c ∈ n.2.elementConditions, c.IsWellTyped g.resolver) :
    ∀ m ∈ (g.projection always usage).members, IsWellFormedMember m.1 m.2 := by
  rintro ⟨key, v⟩ hm
  unfold Generator.projection at hm
  split at hm
  · cases hm
  rcases List.mem_append.mp (Members.mem_of_mem_ofList hm) with hm | hm
  · rcases List.mem_append.mp hm with hm | hm
    · obtain ⟨path, hpath, heq⟩ := List.mem_map.mp hm
      cases heq
      obtain ⟨⟨s, hs, htrimmed⟩, -⟩ := mem_keptPaths_iff.mp hpath
      exact (hpaths s hs _ htrimmed).isWellFormedMember (isWellFormed_int 1)
    · obtain ⟨name, hname, hfield⟩ := List.mem_filterMap.mp hm
      obtain ⟨e, he, heq⟩ := Option.map_eq_some_iff.mp hfield
      cases heq
      exact (hlists _ hname).isWellFormedMember (hg.listField he)
  · obtain ⟨⟨name, e, b⟩, hmem, heq⟩ := List.mem_map.mp hm
    cases heq
    obtain ⟨n, hn, hfield⟩ := List.mem_filterMap.mp hmem
    obtain ⟨e, he, heq⟩ := Option.map_eq_some_iff.mp hfield
    cases heq
    obtain ⟨hname, hconditions⟩ := hblocks n hn
    exact hname.isWellFormedMember (hg.childrenExpr hconditions he)

end Generator

private theorem isWellFormed_memberInvariant : MemberInvariant IsWellFormed where
  member _ h m hm := isWellFormed_single_iff.mpr ((isWellFormed_obj_iff.mp h).2 m hm)
  and_iff items := by
    rw [isWellFormed_single_iff]
    exact ⟨fun h ↦ isWellFormed_arr_iff.mp h.value,
      fun h ↦ IsFreeKey.isWellFormedMember (by decide) (isWellFormed_arr_iff.mpr h)⟩

/-- A pipeline with stages has no issue where the content of each of its stages is well formed. -/
theorem Pipeline.ofPipeline?_toJson {pipeline : Pipeline} (hne : pipeline.isEmpty = false)
    (h : ∀ s ∈ pipeline.stages, (Json.obj s.content).IsWellFormed) :
    Issue.ofPipeline? pipeline.toJson = none := by
  have hstage : ∀ s : Stage, (Json.obj s.content).IsWellFormed → ∀ i,
      Issue.ofStage? i s.toJson = none := by
    intro s hs i
    obtain ⟨m, rest, hcontent⟩ := List.exists_cons_of_ne_nil (isWellFormed_obj_iff.mp hs).1
    have hvalue := hs.ofValue?_eq_none s.key
    rw [hcontent] at hvalue
    rw [Stage.toJson, hcontent]
    cases s <;> exact hvalue
  have hstages : ∀ (stages : List Stage) (i : Nat),
      (∀ s ∈ stages, (Json.obj s.content).IsWellFormed) →
      Issue.ofStages? i (stages.map Stage.toJson) = none := by
    intro stages
    induction stages with
    | nil => exact fun _ _ ↦ rfl
    | cons s rest ih =>
      intro i hs
      rw [List.forall_mem_cons] at hs
      rw [List.map_cons, Issue.ofStages?, hstage s hs.1, ih (i + 1) hs.2, Option.or_none]
  unfold Pipeline.toJson
  cases hs : pipeline.stages with
  | nil => simp [Pipeline.isEmpty, hs] at hne
  | cons s rest => exact hstages (s :: rest) 0 (hs ▸ h)

private theorem Block.plainConditions_subset {c : Condition} (b : Block)
    (hc : c ∈ b.plainConditions) :
    c :: c.operand.elementConditions ⊆ b.elementConditions :=
  Block.ownConditions_subset b (Block.plainConditions_subset_own b hc)

mutual

/-- The conditions of negated named blocks in a block are conditions of the block. -/
theorem Block.negatedBlocks_subset {a : Block} : (b : Block) → a ∈ b.negatedBlocks →
    a.elementConditions ⊆ b.elementConditions
  | ⟨_, _, children, _, _⟩, ha => by
    rw [Block.negatedBlocks] at ha
    split at ha
    · rw [List.mem_singleton.mp ha]
      exact List.Subset.refl _
    · exact Node.negatedBlocks_subset children ha

/-- The conditions of negated named blocks among nodes are conditions of the nodes. -/
theorem Node.negatedBlocks_subset {a : Block} : (nodes : List Node) →
    a ∈ Node.negatedBlocks nodes → a.elementConditions ⊆ Node.elementConditionsAll nodes
  | [], ha => by cases ha
  | .block b :: rest, ha => by
    rw [Node.elementConditionsAll]
    rcases List.mem_append.mp ha with ha | ha
    · exact List.subset_append_of_subset_left _ (Block.negatedBlocks_subset b ha)
    · exact List.subset_append_of_subset_right _ (Node.negatedBlocks_subset rest ha)
  | .condition _ :: rest, ha =>
    List.subset_append_of_subset_right _ (Node.negatedBlocks_subset rest ha)

end

private theorem isIdentifierChar_of_mem_dependencies {text name : String}
    (h : name ∈ Formula.dependencies text) :
    name ≠ "" ∧ ∀ c ∈ name.toList, Formula.isIdentifierChar c = true := by
  rw [Formula.dependencies, Formula.mem_firstOccurrences, List.mem_filterMap] at h
  obtain ⟨token, htoken, h⟩ := h
  simp only [Formula.dependency?] at h
  split at h
  · cases h
  · next hkept =>
    cases h
    constructor
    · rintro hempty
      simp only [Bool.or_eq_true, not_or, List.isEmpty_iff] at hkept
      exact hkept.1.1.1 (by simpa using hempty)
    · intro c hc
      rw [String.toList_ofList, Formula.dropDots, List.mem_reverse] at hc
      exact Formula.isIdentifierChar_of_mem_identifiers htoken c
        (List.mem_reverse.mp ((List.dropWhile_sublist _).subset hc))

private theorem beginsWith_of_isIdentifierChar {s : String}
    (h : ∀ c ∈ s.toList, Formula.isIdentifierChar c = true) : beginsWith "$" s = false := by
  rw [Bool.eq_false_iff, ne_eq, beginsWith_dollar_iff]
  rintro ⟨cs, hcs⟩
  have := h '$' (by rw [hcs]; exact List.mem_cons_self)
  revert this
  decide

/-- What a well-typed field depends on is no key that the checker looks at, with the blanks at its
ends or without. -/
theorem isFreeKey_of_mem_dependents {r : Resolver} {c : Condition} (hc : c.IsWellTyped r)
    {field name : String} (hf : c.fieldName? = some field) (h : name ∈ r.dependents field) :
    IsFreeKey name ∧ ∀ path ∈ Text.trimmed? name, IsFreeKey path := by
  rcases (Resolver.mem_dependents_iff.mp h).cases_tail with rfl | ⟨a, -, ha⟩
  · obtain ⟨s, -, hs⟩ := Option.bind_eq_some_iff.mp hf
    exact ⟨hc.isFreeKey hf, (hc.isFreeKey hf).of_trimmed? hs⟩
  · obtain ⟨v, -, hv⟩ := Resolver.refers_successors_iff.mp ha
    rw [ArithmeticVariable.dependencies] at hv
    cases htext : v.formula? with
    | none => simp [htext] at hv
    | some text =>
      rw [htext, Option.map_some, Option.getD_some] at hv
      obtain ⟨hne, hchars⟩ := isIdentifierChar_of_mem_dependencies hv
      refine ⟨isFreeKey_of_beginsWith hne (beginsWith_of_isIdentifierChar hchars),
        fun path hpath ↦ ?_⟩
      obtain ⟨hne, hsubset⟩ := Text.subset_of_trimmed? hpath
      exact isFreeKey_of_beginsWith hne
        (beginsWith_of_isIdentifierChar fun c hc ↦ hchars c (hsubset hc))

private theorem isFreeKey_of_mem_conditionPaths {r : Resolver} {c : Condition}
    (hc : c.IsWellTyped r) {s : String} (h : s ∈ r.conditionPaths c) :
    ∀ path ∈ Text.trimmed? s, IsFreeKey path := by
  unfold Resolver.conditionPaths at h
  split at h
  · cases h
  · next field hf =>
    apply (isFreeKey_of_mem_dependents hc hf _).2
    split at h
    · cases h
    · rw [Resolver.dependencies, mem_sortedNames] at h
      exact (List.mem_filter.mp h).1
    · rw [List.mem_singleton.mp h]
      exact Resolver.mem_dependents_iff.mpr .refl

namespace Context

variable (ctx : Context)

/-- The complete conditions of a filter and of the element predicates of all list variables. -/
def allConditions (blocks : List Block) : List Condition :=
  blocks.flatMap Block.elementConditions ++
    ctx.catalog.lists.flatMap fun v ↦ (Operand.list v.condition).elementConditions

variable {ctx : Context} {blocks : List Block}

/-- A condition outside negated named blocks is a condition of the filter, with all that its element
predicate holds. -/
theorem mem_allConditions_of_plain {c c' : Condition}
    (hc : c ∈ blocks.flatMap Block.plainConditions)
    (hc' : c' ∈ c :: c.operand.elementConditions) : c' ∈ ctx.allConditions blocks := by
  obtain ⟨root, hroot, hc⟩ := List.mem_flatMap.mp hc
  exact List.mem_append_left _
    (List.mem_flatMap.mpr ⟨root, hroot, Block.plainConditions_subset root hc hc'⟩)

private theorem mem_allConditions_of_negated {n : String × Block} {c : Condition}
    (hn : n ∈ (ctx.usage blocks).negatedBlocks) (hc : c ∈ n.2.elementConditions) :
    c ∈ ctx.allConditions blocks := by
  obtain ⟨root, hroot, hmem⟩ := List.mem_flatMap.mp (Usage.mem_negatedBlocks hn)
  exact List.mem_append_left _
    (List.mem_flatMap.mpr ⟨root, hroot, Block.negatedBlocks_subset root hmem hc⟩)

/-- A condition of the element predicate of a list variable counts for every filter. -/
theorem mem_allConditions_of_list {v : ListVariable} {c : Condition} (hv : v ∈ ctx.catalog.lists)
    (hc : c ∈ (Operand.list v.condition).elementConditions) : c ∈ ctx.allConditions blocks :=
  List.mem_append_right _ (List.mem_flatMap.mpr ⟨v, hv, hc⟩)

private theorem exists_condition_of_mem_listVariables {name : String}
    (h : name ∈ (ctx.usage blocks).listVariables) :
    ∃ c ∈ ctx.allConditions blocks, name ∈ ctx.resolver.conditionLists c := by
  obtain ⟨a, ha, hchain⟩ := Usage.mem_listVariables_iff.mp h
  rcases hchain.cases_tail with rfl | ⟨b, -, hb⟩
  · obtain ⟨c, hc, ha⟩ := List.mem_flatMap.mp ha
    rcases List.mem_append.mp ha with ha | ha
    · exact ⟨c, mem_allConditions_of_plain hc List.mem_cons_self, ha⟩
    · obtain ⟨c', hc', ha⟩ := List.mem_flatMap.mp ha
      exact ⟨c', mem_allConditions_of_plain hc (List.mem_cons_of_mem _ hc'), ha⟩
  · rw [Refers, Resolver.definitionLists] at hb
    cases hv : ctx.resolver.catalog.list? b with
    | none => simp [hv] at hb
    | some v =>
      rw [hv, Option.map_some, Option.getD_some] at hb
      obtain ⟨c, hc, hb⟩ := List.mem_flatMap.mp hb
      refine ⟨c, mem_allConditions_of_list (Catalog.mem_of_list? hv) ?_, hb⟩
      rcases hcondition : v.condition with ⟨_, _, _, operand, _, _, _⟩
      rw [hcondition] at hc
      exact hc

section WellTyped

variable (hconditions : ∀ c ∈ ctx.allConditions blocks, c.IsWellTyped ctx.resolver)
  (hlists : ∀ v ∈ ctx.catalog.lists, v.condition.IsWellTyped)

include hconditions

private theorem isFreeKey_of_mem_listVariables {name : String}
    (h : name ∈ (ctx.usage blocks).listVariables) : IsFreeKey name := by
  obtain ⟨c, hc, hname⟩ := exists_condition_of_mem_listVariables h
  obtain ⟨field, hf, hmem, -⟩ := Resolver.isList_of_mem_conditionLists hname
  have hfree := hconditions c hc
  rcases List.mem_cons.mp hmem with rfl | hmem
  · exact hfree.isFreeKey hf
  · exact (isFreeKey_of_mem_dependents hfree hf hmem).1

/-- The names of the negated blocks that a filter uses are no keys that the checker looks at, and
their conditions are well typed. -/
theorem isFreeKey_of_mem_negatedBlocks {n : String × Block}
    (hn : n ∈ (ctx.usage blocks).negatedBlocks) :
    IsFreeKey n.1 ∧ ∀ c ∈ n.2.elementConditions, c.IsWellTyped ctx.resolver := by
  obtain ⟨hword, hne⟩ := Usage.isWord_of_mem_negatedBlocks hn
  exact ⟨isFreeKey_of_beginsWith hne hword.beginsWith_dollar,
    fun c hc ↦ hconditions c (mem_allConditions_of_negated hn hc)⟩

include hlists

private theorem isFreeKey_of_mem_baseFields {s : String} (h : s ∈ (ctx.usage blocks).baseFields) :
    ∀ path ∈ Text.trimmed? s, IsFreeKey path := by
  have harray : ∀ d : ListCondition, d.IsWellTyped → d.arrayPath? = some s →
      ∀ path ∈ Text.trimmed? s, IsFreeKey path := fun d hd hs ↦ (hd.isFreeKey hs).of_trimmed? hs
  rw [usage, Usage.ofBlocks, mem_sortedNames] at h
  rcases List.mem_append.mp h with h | h
  · obtain ⟨c, hc, h⟩ := List.mem_flatMap.mp h
    have hc := hconditions c (mem_allConditions_of_plain hc List.mem_cons_self)
    rcases List.mem_append.mp h with h | h
    · exact isFreeKey_of_mem_conditionPaths hc h
    · obtain ⟨d, hd, hs⟩ := Option.bind_eq_some_iff.mp (Option.mem_toList.mp h)
      exact harray d (hc.list d hd) hs
  · obtain ⟨name, -, h⟩ := List.mem_flatMap.mp h
    obtain ⟨v, hv, hs⟩ := Option.bind_eq_some_iff.mp (Option.mem_toList.mp h)
    exact harray v.condition (hlists v (Catalog.mem_of_list? hv)) hs

/-- What list variables are written out by is well formed. -/
theorem isWellFormed_generator : ctx.generator.IsWellFormed :=
  Generator.isWellFormed_definitionAt hlists
    (fun _ hv c hc ↦ hconditions c (mem_allConditions_of_list hv hc)) _

/-- The members of the projection of a filter are well formed. -/
theorem isWellFormed_projection (halways : ∀ s ∈ ctx.settings.alwaysProject,
      ∀ path ∈ Text.trimmed? s, beginsWith "$" path = false) :
    ∀ m ∈ (ctx.projection blocks).members, IsWellFormedMember m.1 m.2 := by
  have hg := isWellFormed_generator hconditions hlists
  refine hg.projection (fun s hs ↦ ?_) (fun _ ↦ isFreeKey_of_mem_listVariables hconditions)
    fun _ ↦ isFreeKey_of_mem_negatedBlocks hconditions
  rcases List.mem_append.mp hs with hs | hs
  · exact isFreeKey_of_mem_baseFields hconditions hlists hs
  · exact fun path hpath ↦ isFreeKey_of_trimmed? hpath (halways s hs path hpath)

/-- The members of the match of a filter are well formed. -/
theorem isWellFormed_filterMembers :
    ∀ m ∈ ctx.filterMembers blocks, IsWellFormedMember m.1 m.2 := by
  have hg := isWellFormed_generator hconditions hlists
  have hinvariant := hg.queryInvariant (p := ctx.projection blocks) fun n hn ↦
    (isFreeKey_of_mem_negatedBlocks hconditions (Generator.projection_blocks.mem hn)).1
  intro m hm
  refine isWellFormed_single_iff.mp (isWellFormed_memberInvariant.filterMembers
    (fun root hroot q hq ↦ hinvariant.block root (fun c hc c' hc' ↦ ?_) q hq) m hm)
  exact hconditions c' (mem_allConditions_of_plain (List.mem_flatMap.mpr ⟨root, hroot, hc⟩) hc')

end WellTyped

/-- A filter that uses a path has a pipeline with a stage, if it has a pipeline. -/
theorem isEmpty_eq_false_of_mem_baseFields {pipeline : Pipeline} {path : String}
    (hcompile : ctx.compile? blocks = some pipeline) (hpath : path ∈ (ctx.usage blocks).baseFields)
    (htrimmed : Text.trimmed? path = some path) : pipeline.isEmpty = false := by
  obtain ⟨key, hkey, -⟩ : ∃ key ∈ (ctx.projection blocks).members.keys, LeadsTo key path :=
    Generator.exists_key_of_baseField hpath htrimmed
  unfold compile? at hcompile
  split at hcompile
  · cases hcompile
  · cases hcompile
    cases hmembers : (ctx.projection blocks).members with
    | nil =>
      rw [hmembers] at hkey
      cases hkey
    | cons m rest => rfl

private theorem isWellFormed_content {stage : Option Members} {content members : Members}
    (hmembers : ∀ m ∈ members, IsWellFormedMember m.1 m.2) (hstage : stage.getD [] = members)
    (hne : stage ≠ some []) (hcontent : stage = some content) :
    (Json.obj content).IsWellFormed := by
  subst hcontent
  subst hstage
  exact isWellFormed_obj_iff.mpr ⟨fun hnil ↦ hne (congrArg some hnil), hmembers⟩

/-- The checker accepts every pipeline that is compiled: in any context in which no definition leads
back to itself, a filter has a pipeline, and if that has a stage the checker finds no issue in it.
Conditions have to be well typed, and paths that are always kept begin with no dollar sign. -/
theorem compiled_pipeline_accepted (hacyclic : ∀ name, ¬ TransGen ctx.resolver.Enters name name)
    (hconditions : ∀ c ∈ ctx.allConditions blocks, c.IsWellTyped ctx.resolver)
    (hlists : ∀ v ∈ ctx.catalog.lists, v.condition.IsWellTyped)
    (halways : ∀ s ∈ ctx.settings.alwaysProject, ∀ path ∈ Text.trimmed? s,
      beginsWith "$" path = false) :
    ∃ pipeline, ctx.compile? blocks = some pipeline ∧
      (pipeline.isEmpty = false → Issue.ofPipeline? pipeline.toJson = none) := by
  obtain ⟨pipeline, hcompile, hprojection, hfilter, hproject, hmatch⟩ :=
    ctx.exists_compile?_eq hacyclic blocks
  refine ⟨pipeline, hcompile, fun hne ↦ Pipeline.ofPipeline?_toJson hne fun s hs ↦ ?_⟩
  rcases List.mem_append.mp hs with hs | hs
  · obtain ⟨content, hcontent, rfl⟩ := Option.map_eq_some_iff.mp (Option.mem_toList.mp hs)
    exact isWellFormed_content (isWellFormed_projection hconditions hlists halways) hprojection
      hproject hcontent
  · obtain ⟨content, hcontent, rfl⟩ := Option.map_eq_some_iff.mp (Option.mem_toList.mp hs)
    exact isWellFormed_content (isWellFormed_filterMembers hconditions hlists) hfilter hmatch
      hcontent

/-- A context with a number `mag` and an array `prv` of records with a number `jd`. The list
variable `low` is the least `jd`, `late` are the elements with a `jd` above 2, `low` being positive,
and the arithmetic variable `rise` is what `mag` is above `low`. -/
def observations : Context where
  schema := .ofFields
    [⟨"mag", .named "double", none⟩,
      ⟨"prv", .node ⟨"array", none, none,
        some (.node ⟨"record", some "P", some [⟨"jd", .named "double", none⟩], none⟩)⟩, none⟩]
  catalog := ⟨[⟨"rise", "rise = mag - low"⟩],
    [⟨"low", ⟨"prv", some (.list (.aggregate .min)), some "jd", .literal .null, none, none, none⟩⟩,
      ⟨"late", ⟨"prv", some (.list .filter), none,
        .nested ⟨"e", .and,
          [.condition ⟨"e1", some "jd", some (.compare .gt), .literal (.int 2), none⟩,
            .condition ⟨"e2", some "low", some (.compare .gt), .literal (.str "0"), none⟩],
          none, true⟩, none, none, none⟩⟩]⟩
  settings := { Settings.default with useParseCache := false }

/-- Filters that ask for a `mag` between 15 and 20 and at least three late elements, and for nothing
that rises by more than 1. -/
def observationFilters : List Block :=
  [⟨"a", .and,
    [.condition ⟨"c1", some "mag", some .between, .literal (.arr [.int 15, .str "20"]), none⟩,
      .condition ⟨"c2", some "late", some .longerThan, .literal (.int 2), none⟩], none, true⟩,
    ⟨"b", .or,
      [.condition ⟨"c3", some "rise", some (.compare .gt), .literal (.int 1), none⟩],
      some "rises fast", false⟩]

/-- The filters on `observations` have a pipeline with stages, and the checker accepts it. -/
theorem observationFilters_pipeline_accepted :
    ∃ pipeline, observations.compile? observationFilters = some pipeline ∧
      pipeline.isEmpty = false ∧ Issue.ofPipeline? pipeline.toJson = none := by
  have hacyclic : ∀ name, ¬ TransGen observations.resolver.Enters name name :=
    observations.resolver.acyclic_iff.mpr (by decide +kernel)
  have hconditions : ∀ c ∈ observations.allConditions observationFilters,
      c.IsWellTyped observations.resolver := by
    decide +kernel
  obtain ⟨pipeline, hcompile, haccepted⟩ :=
    compiled_pipeline_accepted hacyclic hconditions (by decide +kernel) (by decide +kernel)
  have hused : "mag" ∈ (observations.usage observationFilters).baseFields :=
    Usage.mem_baseFields_of_condition (List.mem_flatMap.mpr
      ⟨_, List.mem_cons_self, List.mem_cons_self⟩) (by decide +kernel)
  have hne := isEmpty_eq_false_of_mem_baseFields hcompile hused (by decide)
  exact ⟨pipeline, hcompile, hne, haccepted hne⟩

end Context
end FilterPipeline
