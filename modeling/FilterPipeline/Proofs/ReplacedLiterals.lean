import FilterPipeline.Proofs.AlikeQueries
import FilterPipeline.Proofs.NegatedBlocks

/-!
# Literals in the place of others

A filter in which a text that something is compared with is replaced by another one should be
compiled to a pipeline that reads the same. Main statement: what the pipelines refer to differs at
most in the two texts themselves, where they begin with a dollar sign, and in the fields that are
computed for negated blocks. An expression does take a text that begins with a dollar sign for a
reference, though the same text is a mere value in a query.
-/

namespace FilterPipeline

open Fragment Json Relation

/-- The paths that the query of a condition may test: its field and the array of its operand. -/
def Condition.testedPaths (c : Condition) : List String :=
  c.fieldName?.toList ++ (c.operand.list?.bind ListCondition.arrayPath?).toList

private theorem Condition.Rel.testedPaths_eq {L : Bool → Json → Json → Prop} {c c' : Condition}
    (h : c.Rel L c') : c.testedPaths = c'.testedPaths := by
  rw [testedPaths, testedPaths, h.fieldName?_eq, h.operand.arrayPath?_eq]

/-- The paths that the query of a block may test. -/
def Block.testedPaths (b : Block) : List String := b.plainConditions.flatMap Condition.testedPaths

private theorem Block.Rel.testedPaths_eq {L : Bool → Json → Json → Prop} {b b' : Block}
    (h : b.Rel L b') : b.testedPaths = b'.testedPaths :=
  flatMap_eq_of_forall₂ (Block.forall₂_plainConditions b b' h) fun _ _ hc ↦ hc.testedPaths_eq

section Joining

variable {key field : String} {v q : Json}

/-- A test of a path other than `$and` can be joined with others. -/
theorem Json.isJoinable_single (h : key ≠ "$and") : (Json.single key v).IsJoinable :=
  ⟨key, v, rfl, fun hkey ↦ absurd hkey h⟩

private theorem Fragment.isJoinable_negateQuery (q : Json) : (negateQuery q).IsJoinable := by
  unfold negateQuery
  split
  · exact isJoinable_single (by decide)
  · exact isJoinable_single (by decide)

private theorem ListPredicate.isJoinable_toQuery {p : ListPredicate}
    (h : ∀ path reference, p = .isArray path reference → path ≠ "$and") : p.toQuery.IsJoinable := by
  cases p with
  | expr e => exact isJoinable_single (by decide)
  | isArray path reference => exact isJoinable_single (h path reference rfl)

private theorem ListQuery.path_of_predicate {q : ListQuery} {path reference : String}
    (h : q.predicate = .isArray path reference) : path = q.arrayPath := by
  unfold predicate at h
  split at h
  · cases h
  · split at h <;> cases h
    rfl
  · cases h

namespace Generator

variable {g : Generator} {p : Projection} {element : Option Json} {op : Operator}

/-- A comparison of a field other than `$and` can be joined with others. -/
theorem isJoinable_compareQuery {type : Option FieldType} (hfield : field ≠ "$and")
    (hq : g.compareQuery field op v type = some q) : q.IsJoinable := by
  have hindex : ∀ n : Int, field ++ "." ++ toString n ≠ "$and" := by
    intro n h
    have hdot : '.' ∈ "$and".toList := by
      rw [← h, String.toList_append, String.toList_append]
      simp
    revert hdot
    decide
  cases op with
  | compare c =>
    cases c with
    | eq | ne =>
      simp only [compareQuery] at hq
      split at hq <;> (cases hq; exact isJoinable_single hfield)
    | gt | gte | lt | lte =>
      cases hq
      exact isJoinable_single hfield
  | oneOf | noneOf | regex | contains | startsWith | endsWith | present =>
    cases hq
    exact isJoinable_single hfield
  | isNumber =>
    cases hq
    exact isJoinable_single (by decide)
  | between =>
    obtain ⟨⟨low, high⟩, -, hq⟩ := Option.bind_eq_some_iff.mp hq
    cases hq
    exact isJoinable_single hfield
  | notBetween =>
    obtain ⟨⟨low, high⟩, -, hq⟩ := Option.bind_eq_some_iff.mp hq
    cases hq
    exact isJoinable_single (by decide)
  | longerThan | shorterThan =>
    simp only [compareQuery, Option.bind_eq_bind, Option.bind_eq_some_iff] at hq
    obtain ⟨n, -, hq⟩ := hq
    split at hq <;> cases hq
    · exact isJoinable_single (by decide)
    · exact isJoinable_single (hindex _)
  | list l => cases hq

private theorem isJoinable_baseQuery {operand : Operand} (hfield : field ≠ "$and")
    (harray : operand.list?.bind ListCondition.arrayPath? ≠ some "$and")
    (hq : g.baseQuery field op operand element = some q) : q.IsJoinable := by
  unfold baseQuery at hq
  split at hq
  · obtain ⟨query, hquery, rfl⟩ := Option.map_eq_some_iff.mp hq
    refine ListPredicate.isJoinable_toQuery fun path reference hpath ↦ ?_
    simp only [ListQuery.ofListCondition?, Option.bind_eq_bind, Option.bind_eq_some_iff] at hquery
    obtain ⟨l, -, array, hd, hquery⟩ := hquery
    cases hquery
    rw [ListQuery.path_of_predicate hpath]
    rintro rfl
    exact harray hd
  · cases hq
    refine ListPredicate.isJoinable_toQuery fun path reference hpath ↦ ?_
    rw [ListQuery.path_of_predicate hpath]
    exact hfield
  · obtain ⟨v, -, hq⟩ := Option.bind_eq_some_iff.mp hq
    exact isJoinable_compareQuery hfield hq

private theorem isJoinable_of_bind {c : Condition} {fragment : Option Json}
    (h : ∀ e, fragment = some e → e.IsJoinable)
    (hq : (fragment.bind fun e ↦ some (if c.isNegated then negateQuery e else e)) = some q) :
    q.IsJoinable := by
  obtain ⟨e, he, hq⟩ := Option.bind_eq_some_iff.mp hq
  cases hq
  split
  · exact isJoinable_negateQuery e
  · exact h e he

private theorem isJoinable_conditionQuery {c : Condition} (hc : "$and" ∉ c.testedPaths)
    (hq : g.conditionQuery p c element = some q) : q.IsJoinable := by
  simp only [Condition.testedPaths, List.mem_append, Option.mem_toList, not_or] at hc
  simp only [conditionQuery, Option.bind_eq_bind, Option.bind_eq_some_iff] at hq
  obtain ⟨field, hf, op, -, hq⟩ := hq
  have hfield : field ≠ "$and" := fun h ↦ hc.1 (h ▸ hf)
  have hexpr : ∀ e : Json, (exprQuery e).IsJoinable := fun e ↦ isJoinable_single (by decide)
  have hbase : ∀ e, g.baseQuery field op c.operand element = some e → e.IsJoinable :=
    fun e ↦ isJoinable_baseQuery hfield hc.2
  split at hq
  · next v l hv =>
    have hkey : v.key ≠ "$and" := by
      rwa [Catalog.key_of_list? (Resolver.classify_eq_list_iff.mp hv).1]
    have hcompare : ∀ type e, g.compareQuery v.key op (c.operand.literal?.getD .null) type =
        some e → e.IsJoinable := fun type e ↦ isJoinable_compareQuery hkey
    split at hq
    · simp only [materializedQuery, Option.bind_eq_bind] at hq
      split at hq
      · exact isJoinable_of_bind (hcompare _) hq
      · exact isJoinable_of_bind (hcompare _) hq
      · exact isJoinable_of_bind (hcompare _) hq
      · exact isJoinable_of_bind (fun _ he ↦ Option.some.inj he ▸ hexpr _) hq
      · exact isJoinable_of_bind (hcompare _) hq
    · obtain ⟨e, -, rfl⟩ := Option.map_eq_some_iff.mp hq
      exact hexpr e
  · split at hq
    · obtain ⟨v, -, hq⟩ := Option.bind_eq_some_iff.mp hq
      obtain ⟨e, -, hq⟩ := Option.bind_eq_some_iff.mp hq
      exact isJoinable_of_bind (fun _ he ↦ Option.some.inj he ▸ hexpr _) hq
    · exact isJoinable_of_bind hbase hq
  · exact isJoinable_of_bind hbase hq

private theorem isJoinable_blockQuery {b : Block} (hnames : ∀ n ∈ p.blocks, n.1 ≠ "$and")
    (hb : "$and" ∉ b.testedPaths) (hq : g.blockQuery p b = some q) : q.IsJoinable := by
  have hinvariant : g.QueryInvariant p (fun c ↦ "$and" ∉ c.testedPaths) Json.IsJoinable :=
    ⟨fun n hn ↦ isJoinable_single (hnames n hn), fun _ _ _ ↦ ⟨_, _, rfl, fun _ ↦ ⟨_, rfl⟩⟩,
      fun _ _ hc h ↦ isJoinable_conditionQuery hc h⟩
  exact hinvariant.block b (fun c hc hand ↦ hb (List.mem_flatMap.mpr ⟨c, hc, hand⟩)) q hq

end Generator

end Joining

namespace Usage

/-- What is registered stays so, and a negated named block is registered then, or an equal one. -/
theorem register_spec {b : Block} (hb : b.isNegatedNamed = true) (done : List (String × Block)) :
    done ⊆ register done b ∧ ∃ n ∈ register done b, n.2 = b ∨ n.2.same b = true := by
  obtain ⟨name, hname⟩ := Block.exists_materializedName hb
  simp only [register, hname]
  split
  · next h =>
    obtain ⟨n, hn, hnb⟩ := List.any_eq_true.mp h
    exact ⟨List.Subset.refl _, n, hn, Or.inr hnb⟩
  · exact ⟨List.subset_append_left _ _, _, List.mem_append_right _ (List.mem_singleton_self _),
      Or.inl rfl⟩

private theorem foldl_register_spec {todo : List Block}
    (htodo : ∀ b ∈ todo, b.isNegatedNamed = true) (done : List (String × Block)) :
    done ⊆ todo.foldl register done ∧
      ∀ b ∈ todo, ∃ n ∈ todo.foldl register done, n.2 = b ∨ n.2.same b = true := by
  induction todo generalizing done with
  | nil => exact ⟨List.Subset.refl _, fun b hb ↦ by cases hb⟩
  | cons a todo ih =>
    rw [List.forall_mem_cons] at htodo
    obtain ⟨hkept, hfound⟩ := ih htodo.2 (register done a)
    obtain ⟨hdone, n, hn, hna⟩ := register_spec htodo.1 done
    exact ⟨fun m hm ↦ hkept (hdone hm), List.forall_mem_cons.mpr ⟨⟨n, hkept hn, hna⟩, hfound⟩⟩

/-- Each of the outermost negated named blocks of a filter is registered, or an equal one is. -/
theorem exists_negatedBlock {r : Resolver} {blocks : List Block} {b : Block}
    (hb : b ∈ blocks.flatMap Block.negatedBlocks) :
    ∃ n ∈ (ofBlocks r blocks).negatedBlocks, n.2 = b ∨ n.2.same b = true :=
  (foldl_register_spec (fun _ ha ↦ Context.isNegatedNamed_of_mem ha) []).2 b hb

end Usage

section Projections

variable {r s t : String} {g : Generator} {always : List String} {usage : Usage}

/-- The members of a projection for paths and list variables. -/
def Generator.plainMembers (g : Generator) (always : List String) (usage : Usage) : Members :=
  .ofList ((keptPaths usage.baseFields always).map (fun path ↦ (path, .int 1)) ++
    usage.listVariables.filterMap fun name ↦ (g.listField? name).map (name, ·))

/-- A member of a projection is the expression of a negated block, or it is kept or computed for a
list variable under a name that no negated block has. -/
theorem Generator.mem_projection_members_iff (hused : usage.isEmpty = false)
    (hnodup : (usage.negatedBlocks.map (·.1)).Nodup) {m : String × Json} :
    m ∈ (g.projection always usage).members ↔
      (∃ n ∈ usage.negatedBlocks, n.1 = m.1 ∧ g.childrenExpr .document n.2 = some m.2) ∨
        m ∈ g.plainMembers always usage ∧
          m.1 ∉ (g.projection always usage).blocks.map (·.1) := by
  have hblocks : ((g.projection always usage).blocks.map (·.1)).Nodup :=
    (projection_blocks.map _).nodup hnodup
  simp only [projection, plainMembers, hused, Bool.false_eq_true, if_false, List.map_map]
    at hblocks ⊢
  rw [Members.mem_ofList_append (by simpa [Function.comp_def] using hblocks)]
  simp only [List.map_map, Function.comp_def]
  refine or_congr_left ?_
  obtain ⟨name, e⟩ := m
  simp only [List.mem_map, List.mem_filterMap, Option.map_eq_some_iff, Prod.exists, Prod.mk.injEq]
  constructor
  · rintro ⟨_, _, b, ⟨_, _, hn, _, he, rfl, rfl, rfl⟩, rfl, rfl⟩
    exact ⟨_, _, hn, rfl, he⟩
  · rintro ⟨_, b, hn, rfl, he⟩
    exact ⟨_, _, b, ⟨_, _, hn, _, he, rfl, rfl, rfl⟩, rfl, rfl⟩

private theorem mem_projectedReferences_of_ne {name : String} (e : Json) (h : r ≠ "$" ++ name) :
    r ∈ projectedReferences (name, e) ↔ r ∈ e.references := by
  unfold projectedReferences
  split
  · next path n heq =>
    cases heq
    simp [h]
  · next heq =>
    cases heq
    rfl

/-- What a projection refers to, besides the fields of negated blocks: what its paths and list
variables do, and what negated blocks do. -/
theorem Generator.mem_projectedReferences_iff (hused : usage.isEmpty = false)
    (hnodup : (usage.negatedBlocks.map (·.1)).Nodup)
    (hlists : (g.projection always usage).lists.Disjoint
      ((g.projection always usage).blocks.map (·.1)))
    (hnames : ∀ n ∈ (g.projection always usage).blocks, r ≠ "$" ++ n.1) :
    r ∈ (g.projection always usage).members.flatMap projectedReferences ↔
      (∃ n ∈ usage.negatedBlocks, ∃ e ∈ g.childrenExpr .document n.2, r ∈ e.references) ∨
        r ∈ (g.plainMembers always usage).flatMap projectedReferences := by
  have hcomputed : ∀ n ∈ usage.negatedBlocks, ∀ e, g.childrenExpr .document n.2 = some e →
      r ≠ "$" ++ n.1 := by
    intro n hn e he
    apply hnames n
    rw [projection_blocks_eq, List.mem_filter]
    exact ⟨hn, by rw [he]; rfl⟩
  simp only [List.mem_flatMap]
  constructor
  · rintro ⟨m, hm, hr⟩
    rcases (mem_projection_members_iff hused hnodup).mp hm with ⟨n, hn, hname, he⟩ | ⟨hm, -⟩
    · refine Or.inl ⟨n, hn, m.2, he, (mem_projectedReferences_of_ne _ ?_).mp hr⟩
      rw [← hname]
      exact hcomputed n hn _ he
    · exact Or.inr ⟨m, hm, hr⟩
  · rintro (⟨n, hn, e, he, hr⟩ | ⟨⟨name, e⟩, hm, hr⟩)
    · exact ⟨(n.1, e), (mem_projection_members_iff hused hnodup).mpr (Or.inl ⟨n, hn, rfl, he⟩),
        (mem_projectedReferences_of_ne e (hcomputed n hn e he)).mpr hr⟩
    · refine ⟨(name, e),
        (mem_projection_members_iff hused hnodup).mpr (Or.inr ⟨hm, fun hblock ↦ ?_⟩), hr⟩
      rcases List.mem_append.mp (Members.mem_of_mem_ofList hm) with hpath | hlist
      · obtain ⟨path, -, hpath⟩ := List.mem_map.mp hpath
        cases hpath
        obtain ⟨n, hn, rfl⟩ := List.mem_map.mp hblock
        exact hnames n hn (List.mem_singleton.mp hr)
      · obtain ⟨_, hlist, hfield⟩ := List.mem_filterMap.mp hlist
        obtain ⟨_, he, hfield⟩ := Option.map_eq_some_iff.mp hfield
        cases hfield
        refine hlists ?_ hblock
        rw [projection_lists_eq, List.mem_filter]
        exact ⟨hlist, by rw [he]; rfl⟩

/-- The children of a block, as an expression, refer to a string. -/
def Generator.ChildrenRefer (g : Generator) (r : String) (b : Block) : Prop :=
  ∃ e ∈ g.childrenExpr .document b, r ∈ e.references

/-- The children of corresponding blocks with alike literals both refer to a string or both do not.
-/
theorem Generator.childrenRefer_iff {b b' : Block} (h : b.Rel (Alike r) b') :
    g.ChildrenRefer r b ↔ g.ChildrenRefer r b' := by
  unfold ChildrenRefer
  have hread : Option.Rel (ReadAlike r) (g.childrenExpr .document b)
      (g.childrenExpr .document b') := readAlike_childrenExpr h
  rcases rel_cases hread with ⟨he, he'⟩ | ⟨e, e', he, he', hread⟩
  · rw [he, he']
  · rw [he, he']
    replace hread : r ∈ e.references ↔ r ∈ e'.references := hread
    simpa using hread

/-- The registered blocks of a filter refer to what its negated named blocks do. -/
theorem Generator.exists_negatedBlocks_refer_iff (resolver : Resolver) (blocks : List Block) :
    (∃ n ∈ (Usage.ofBlocks resolver blocks).negatedBlocks, g.ChildrenRefer r n.2) ↔
      ∃ b ∈ blocks.flatMap Block.negatedBlocks, g.ChildrenRefer r b := by
  constructor
  · rintro ⟨n, hn, h⟩
    exact ⟨n.2, Usage.mem_negatedBlocks hn, h⟩
  · rintro ⟨b, hb, h⟩
    obtain ⟨n, hn, rfl | hsame⟩ := Usage.exists_negatedBlock (r := resolver) hb
    · exact ⟨n, hn, h⟩
    · have halike : n.2.Rel (Alike r) b :=
        Block.Rel.mono (fun _ _ _ ↦ Alike.of_same) _ _ (Block.rel_of_same _ _ hsame)
      exact ⟨n, hn, (childrenRefer_iff halike).mpr h⟩

/-- Corresponding lists of blocks with alike literals both have one that refers to a string or both
have none. -/
theorem Generator.exists_childrenRefer_iff {blocks blocks' : List Block}
    (h : List.Forall₂ (Block.Rel (Alike r)) blocks blocks') :
    (∃ b ∈ blocks, g.ChildrenRefer r b) ↔ ∃ b ∈ blocks', g.ChildrenRefer r b := by
  induction h with
  | nil => rfl
  | cons hb _ ih =>
    rw [List.exists_mem_cons_iff, List.exists_mem_cons_iff]
    exact or_congr (childrenRefer_iff hb) ih

end Projections

namespace Context

variable {ctx : Context} {r s t : String} {blocks blocks' : List Block}

/-- The match of a filter refers to what its roots do, where no condition tests a path `$and`. -/
theorem mem_filterMembers_references_iff (hand : "$and" ∉ blocks.flatMap Block.testedPaths) :
    r ∈ (Json.obj (ctx.filterMembers blocks)).queryReferences ↔ r ∈ blocks.flatMap fun b ↦
      (ctx.generator.blockQuery (ctx.projection blocks) b).toList.flatMap queryReferences := by
  have hnames : ∀ n ∈ (ctx.projection blocks).blocks, n.1 ≠ "$and" := by
    intro n hn hname
    have hword := (Usage.isWord_of_mem_negatedBlocks (mem_negatedBlocks_of_computed hn)).1
    rw [hname] at hword
    exact absurd (hword '$' (by decide)) (by decide)
  rw [filterMembers, mem_queryReferences_foldl_mergeRoot, List.filterMap_eq_flatMap_toList,
    List.flatMap_assoc]
  intro q hq
  obtain ⟨b, hb, hq⟩ := List.mem_filterMap.mp hq
  exact Generator.isJoinable_blockQuery hnames
    (fun h ↦ hand (List.mem_flatMap.mpr ⟨b, hb, h⟩)) hq

section Stages

variable (hrel : List.Forall₂ (Block.Rel (Replaces s t)) blocks blocks')

include hrel

/-- With replaced literals a filter computes the same list variables. -/
theorem computedLists_eq_of_replaces : ctx.computedLists blocks = ctx.computedLists blocks' := by
  rw [computedLists, computedLists, projection, projection, Generator.projection_lists_eq,
    Generator.projection_lists_eq, usage, usage, (Usage.ofBlocks_eq hrel).2.2]

/-- With replaced literals a filter has negated named blocks that correspond. -/
theorem forall₂_negatedBlocks : List.Forall₂ (Block.Rel (Replaces s t))
    (blocks.flatMap Block.negatedBlocks) (blocks'.flatMap Block.negatedBlocks) :=
  List.rel_flatMap hrel fun b b' hb ↦ Block.forall₂_negatedBlocks b b' hb

private theorem isEmpty_usage_eq_of_replaces :
    (ctx.usage blocks).isEmpty = (ctx.usage blocks').isEmpty := by
  have hnil : ∀ blocks, (ctx.usage blocks).negatedBlocks.isEmpty =
      (blocks.flatMap Block.negatedBlocks).isEmpty := by
    intro blocks
    rw [Bool.eq_iff_iff, List.isEmpty_iff, List.isEmpty_iff, List.eq_nil_iff_forall_not_mem,
      List.eq_nil_iff_forall_not_mem]
    constructor
    · intro h b hb
      obtain ⟨n, hn, -⟩ := Usage.exists_negatedBlock (r := ctx.resolver) hb
      exact h n hn
    · exact fun h n hn ↦ h n.2 (Usage.mem_negatedBlocks hn)
  have hnegated : (blocks.flatMap Block.negatedBlocks).isEmpty =
      (blocks'.flatMap Block.negatedBlocks).isEmpty := by
    rw [Bool.eq_iff_iff, List.isEmpty_iff_length_eq_zero, List.isEmpty_iff_length_eq_zero,
      (forall₂_negatedBlocks hrel).length_eq]
  obtain ⟨hbase, harithmetic, hlists⟩ := Usage.ofBlocks_eq (r := ctx.resolver) hrel
  rw [Usage.isEmpty, Usage.isEmpty, hnil, hnil, hnegated, usage, usage, hbase, harithmetic, hlists]

variable (hs : s ≠ "") (ht : t ≠ "") (hrs : r ∉ (Json.str s).references)
  (hrt : r ∉ (Json.str t).references)
  (hnames : ∀ name ∈ ctx.computedBlocks blocks, r ≠ "$" ++ name)
  (hnames' : ∀ name ∈ ctx.computedBlocks blocks', r ≠ "$" ++ name)

include hs ht hrs hrt hnames hnames'

/-- The projection of a filter with replaced literals refers as before. -/
theorem mem_projectedReferences_iff_of_replaces
    (hlists : (ctx.computedLists blocks).Disjoint (ctx.computedBlocks blocks))
    (hlists' : (ctx.computedLists blocks').Disjoint (ctx.computedBlocks blocks')) :
    r ∈ (ctx.projection blocks).members.flatMap projectedReferences ↔
      r ∈ (ctx.projection blocks').members.flatMap projectedReferences := by
  by_cases hused : (ctx.usage blocks).isEmpty = true
  · have hused' : (ctx.usage blocks').isEmpty = true := isEmpty_usage_eq_of_replaces hrel ▸ hused
    simp [projection, Generator.projection, hused, hused']
  · have hused : (ctx.usage blocks).isEmpty = false := by simpa using hused
    have hused' : (ctx.usage blocks').isEmpty = false := isEmpty_usage_eq_of_replaces hrel ▸ hused
    have hmem : ∀ blocks, (∀ name ∈ ctx.computedBlocks blocks, r ≠ "$" ++ name) →
        ∀ n ∈ (ctx.projection blocks).blocks, r ≠ "$" ++ n.1 :=
      fun _ h n hn ↦ h n.1 (List.mem_map_of_mem hn)
    have halike : List.Forall₂ (Block.Rel (Alike r)) (blocks.flatMap Block.negatedBlocks)
        (blocks'.flatMap Block.negatedBlocks) :=
      (forall₂_negatedBlocks hrel).imp fun b b' hb ↦
        Block.Rel.mono (fun _ _ _ hv ↦ hv.alike hs ht hrs hrt) b b' hb
    have hplain : ctx.generator.plainMembers ctx.settings.alwaysProject (ctx.usage blocks) =
        ctx.generator.plainMembers ctx.settings.alwaysProject (ctx.usage blocks') := by
      obtain ⟨hbase, -, hlists⟩ := Usage.ofBlocks_eq (r := ctx.resolver) hrel
      rw [Generator.plainMembers, Generator.plainMembers, usage, usage, hbase, hlists]
    have hblocks := Generator.exists_childrenRefer_iff (g := ctx.generator) halike
    rw [← Generator.exists_negatedBlocks_refer_iff ctx.resolver,
      ← Generator.exists_negatedBlocks_refer_iff ctx.resolver] at hblocks
    rw [projection, projection,
      Generator.mem_projectedReferences_iff hused (Usage.wellNamed_negatedBlocks _ _).nodup hlists
        (hmem blocks hnames),
      Generator.mem_projectedReferences_iff hused' (Usage.wellNamed_negatedBlocks _ _).nodup hlists'
        (hmem blocks' hnames'), hplain]
    exact or_congr_left hblocks

/-- The match of a filter with replaced literals refers as before, where no condition tests a path
`$and`. -/
theorem mem_queryReferences_iff_of_replaces (hand : "$and" ∉ blocks.flatMap Block.testedPaths) :
    r ∈ (Json.obj (ctx.filterMembers blocks)).queryReferences ↔
      r ∈ (Json.obj (ctx.filterMembers blocks')).queryReferences := by
  have hand' : "$and" ∉ blocks'.flatMap Block.testedPaths := by
    rwa [← flatMap_eq_of_forall₂ hrel fun _ _ hb ↦ hb.testedPaths_eq]
  have halike : ctx.generator.RefersAlike r s t (ctx.projection blocks) (ctx.projection blocks') :=
    Generator.refersAlike_of_lists_eq hs ht hrs hrt (computedLists_eq_of_replaces hrel)
      (fun n hn ↦ hnames n.1 (List.mem_map_of_mem hn))
      (fun n hn ↦ hnames' n.1 (List.mem_map_of_mem hn))
  rw [mem_filterMembers_references_iff hand, mem_filterMembers_references_iff hand']
  generalize ctx.projection blocks = p at halike
  generalize ctx.projection blocks' = p' at halike
  clear hnames hnames' hand hand'
  induction hrel with
  | nil => rfl
  | cons hb _ ih =>
    rw [List.flatMap_cons, List.flatMap_cons, List.mem_append, List.mem_append]
    exact or_congr (Generator.mem_queryReferences_block_iff halike _ _ hb) ih

end Stages

/-- Where no definition leads back to itself, a filter in which a text `s` that something is
compared with is replaced by `t`, in one place or in several, is compiled to a pipeline that refers
to the same, the fields of negated blocks aside, and the texts themselves where they begin with a
dollar sign. The roots must test no path `$and`, under which the match could not join them, and
negated blocks must not take the fields of list variables. -/
theorem references_iff_of_replaces
    (hacyclic : ∀ name, ¬ TransGen ctx.resolver.Enters name name) (hs : s ≠ "") (ht : t ≠ "")
    (hrel : List.Forall₂ (Block.Rel (Replaces s t)) blocks blocks')
    (hand : "$and" ∉ blocks.flatMap Block.testedPaths)
    (hfree : (ctx.computedLists blocks).Disjoint
      (ctx.computedBlocks blocks ++ ctx.computedBlocks blocks')) :
    ∃ p p', ctx.compile? blocks = some p ∧ ctx.compile? blocks' = some p' ∧
      ∀ r, r ∉ (Json.str s).references → r ∉ (Json.str t).references →
        (∀ name ∈ ctx.computedBlocks blocks ++ ctx.computedBlocks blocks', r ≠ "$" ++ name) →
        (r ∈ p.references ↔ r ∈ p'.references) := by
  obtain ⟨p, hp, hprojection, hfilter, -⟩ := ctx.exists_compile?_eq hacyclic blocks
  obtain ⟨p', hp', hprojection', hfilter', -⟩ := ctx.exists_compile?_eq hacyclic blocks'
  refine ⟨p, p', hp, hp', fun r hrs hrt hnames ↦ ?_⟩
  rw [List.disjoint_append_right] at hfree
  rw [List.forall_mem_append] at hnames
  rw [Pipeline.references, Pipeline.references, hprojection, hprojection', hfilter, hfilter',
    List.mem_append, List.mem_append]
  refine or_congr ?_ ?_
  · exact mem_projectedReferences_iff_of_replaces hrel hs ht hrs hrt hnames.1 hnames.2 hfree.1
      (computedLists_eq_of_replaces hrel ▸ hfree.2)
  · exact mem_queryReferences_iff_of_replaces hrel hs ht hrs hrt hnames.1 hnames.2 hand

/-- A negated block named `excluded` that asks for a `name`. -/
def exclusion (name : String) : Block where
  id := "b"
  logic := .and
  children := [.condition ⟨"c", some "name", some (.compare .eq), .literal (.str name), none⟩]
  name := some "excluded"
  mustHold := false

/-- The exclusions of two names are the same but for the names. -/
theorem exclusion_rel (s t : String) :
    List.Forall₂ (Block.Rel (Replaces s t)) [exclusion s] [exclusion t] :=
  .cons (.mk (.cons (.condition (.mk (.literal (Or.inr ⟨rfl, rfl, rfl⟩)))) .nil)) .nil

/-- Which of two names is excluded makes no difference to what is read. -/
theorem exclusion_references_iff :
    ∃ p p', default.compile? [exclusion "SN Ia"] = some p ∧
      default.compile? [exclusion "AGN"] = some p' ∧
      ∀ r, r ∉ (Json.str "SN Ia").references → r ∉ (Json.str "AGN").references →
        (∀ name ∈ default.computedBlocks [exclusion "SN Ia"] ++
          default.computedBlocks [exclusion "AGN"], r ≠ "$" ++ name) →
        (r ∈ p.references ↔ r ∈ p'.references) := by
  have hlists : default.computedLists [exclusion "SN Ia"] = [] := by decide +kernel
  refine references_iff_of_replaces (default.resolver.acyclic_iff.mpr fun _ h ↦ by cases h)
    (by decide) (by decide) (exclusion_rel _ _) (by decide +kernel) ?_
  rw [hlists]
  exact List.disjoint_nil_left _

/-- A name that begins with a dollar sign is read as a field. -/
theorem exclusion_reads_field :
    List.Forall₂ (Block.Rel (Replaces "$secret" "AGN")) [exclusion "$secret"] [exclusion "AGN"] ∧
      (∃ p ∈ default.compile? [exclusion "$secret"], "$secret" ∈ p.references) ∧
      ∃ p' ∈ default.compile? [exclusion "AGN"], "$secret" ∉ p'.references :=
  ⟨exclusion_rel _ _, by decide +kernel⟩

end Context
end FilterPipeline
