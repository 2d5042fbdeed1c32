import FilterPipeline.Proofs.ProjectionKeys
import FilterPipeline.Proofs.Unrolling

/-!
# The names in a projection

A projection has three kinds of keys: kept paths, list variables and negated named blocks. Main
statement: in a valid catalog they are told apart, and no key leads to another, exactly when no
computed name leads to a path that is used or always kept and no negated block bears the name of a
computed list variable. Nothing checks that, and negated blocks can break it.
-/

namespace FilterPipeline

open Relation

/-- A name with no dot has no ancestor. -/
theorem HasNoDot.not_isAncestor {a name : String} (h : HasNoDot name) : ¬ IsAncestor a name := by
  rintro ⟨rest, rfl⟩
  apply h
  simp

private theorem leadsTo_of_toList {a b : String} {t r r' : List Char}
    (hb : b.toList = a.toList ++ t) (ht : ".".toList ++ r = t ++ (".".toList ++ r')) :
    LeadsTo a b := by
  cases t with
  | nil => exact Or.inl (String.toList_inj.mp (by simpa using hb.symm))
  | cons c t =>
    have hc : c = '.' := by
      have := congrArg List.head? ht
      simpa using this.symm
    refine Or.inr ⟨String.ofList t, String.toList_inj.mp ?_⟩
    simp [hb, hc]

/-- Of two paths that lead to a third one, one leads to the other. -/
theorem LeadsTo.total {a b path : String} (ha : LeadsTo a path) (hb : LeadsTo b path) :
    LeadsTo a b ∨ LeadsTo b a := by
  rcases ha with rfl | ⟨r, rfl⟩
  · exact Or.inr hb
  · rcases hb with rfl | ⟨r', h⟩
    · exact Or.inl (Or.inr ⟨r, rfl⟩)
    · have hlist := congrArg String.toList h
      simp only [String.toList_append, List.append_assoc] at hlist
      rcases List.append_eq_append_iff.mp hlist with ⟨t, hb, ht⟩ | ⟨t, ha, ht⟩
      · exact Or.inl (leadsTo_of_toList hb ht)
      · exact Or.inr (leadsTo_of_toList ha ht)

namespace ListVariable

/-- A list variable without fault has a name of some length and of allowed characters, and an
array. -/
theorem of_validate {v : ListVariable} (h : v.validate = .ok ()) :
    3 ≤ v.key.length ∧ isName v.key = true ∧ v.condition.arrayPath?.isSome = true := by
  have hfault : v.fault? = none := by
    unfold validate at h
    split at h
    · next hf => exact hf
    · cases h
  unfold fault? at hfault
  split at hfault
  · cases hfault
  · split at hfault
    · cases hfault
    · split at hfault
      · cases hfault
      · split at hfault
        · cases hfault
        · next hlength _ hname harray =>
          exact ⟨not_lt.mp hlength, by simpa using hname, by simpa [Option.isSome_iff_ne_none]
            using harray⟩

/-- The name of a list variable without fault has no dot. -/
theorem hasNoDot_of_validate {v : ListVariable} (h : v.validate = .ok ()) : HasNoDot v.key := by
  intro hdot
  have := List.all_eq_true.mp (of_validate h).2.1 '.' hdot
  revert this
  decide

end ListVariable

/-- The list variables of a valid catalog are without fault, and their names are no paths of the
schema. -/
theorem Catalog.validate_of_mem {c : Catalog} {s : Schema} (h : c.validate s = .ok ())
    {v : ListVariable} (hv : v ∈ c.lists) : v.validate = .ok () ∧ s.typeAt? v.key = none := by
  have hlist := (validate_eq_ok_iff.mp h).1 v hv
  unfold validateList at hlist
  cases hvalid : v.validate with
  | ok u =>
    rw [hvalid] at hlist
    cases htype : s.typeAt? v.key with
    | none => exact ⟨rfl, rfl⟩
    | some t => simp [htype, bind, Except.bind] at hlist
  | error fault =>
    rw [hvalid] at hlist
    cases hlist

private theorem Catalog.hasNoDot_of_validate {c : Catalog} {s : Schema} (h : c.validate s = .ok ())
    {name : String} {v : ListVariable} (hv : c.list? name = some v) : HasNoDot name := by
  rw [← key_of_list? hv]
  exact ListVariable.hasNoDot_of_validate (validate_of_mem h (mem_of_list? hv)).1

namespace Generator

variable {g : Generator} {always : List String} {usage : Usage}

/-- The list variables that a projection computes are the used ones that have an expression. -/
theorem projection_lists_eq : (g.projection always usage).lists =
    usage.listVariables.filter fun name ↦ (g.listField? name).isSome := by
  unfold projection
  split
  · next h =>
    have hnil : usage.listVariables = [] := by
      simpa [Usage.isEmpty] using (Bool.and_eq_true_iff.mp (Bool.and_eq_true_iff.mp h).1).2
    rw [hnil, List.filter_nil]
  · simp only [List.map_filterMap]
    rw [← List.filterMap_eq_filter]
    apply List.filterMap_congr
    intro name _
    cases h : g.listField? name <;> simp [Option.guard, h]

/-- The list variables that a projection computes are used ones, each once, with an expression. -/
theorem projection_lists :
    (g.projection always usage).lists.Sublist usage.listVariables ∧
      ∀ name ∈ (g.projection always usage).lists, ∃ v, g.resolver.catalog.list? name = some v := by
  rw [projection_lists_eq]
  refine ⟨List.filter_sublist, fun name hn ↦ ?_⟩
  obtain ⟨e, he⟩ := Option.isSome_iff_exists.mp (List.mem_filter.mp hn).2
  simp only [listField?, Option.bind_eq_bind, Option.bind_eq_some_iff] at he
  obtain ⟨v, hv, -⟩ := he
  exact ⟨v, hv⟩

/-- The negated blocks that a projection computes are the used ones that are compiled to something.
-/
theorem projection_blocks_eq : (g.projection always usage).blocks =
    usage.negatedBlocks.filter fun n ↦ (g.childrenExpr .document n.2).isSome := by
  unfold projection
  split
  · next h =>
    have hnil : usage.negatedBlocks = [] := by
      simpa [Usage.isEmpty] using (Bool.and_eq_true_iff.mp h).2
    rw [hnil, List.filter_nil]
  · simp only [List.map_filterMap]
    rw [← List.filterMap_eq_filter]
    apply List.filterMap_congr
    intro n _
    cases h : g.childrenExpr .document n.2 <;> simp [Option.guard, h]

/-- The negated blocks that a projection computes are used ones, each once. -/
theorem projection_blocks :
    (g.projection always usage).blocks.Sublist usage.negatedBlocks := by
  rw [projection_blocks_eq]
  exact List.filter_sublist

/-- Where the names of negated blocks differ, each block is computed by its own expression, whatever
the other keys of the projection are. -/
theorem get?_projection_blocks (hkeys : ((g.projection always usage).blocks.map (·.1)).Nodup)
    {n : String × Block} (hn : n ∈ (g.projection always usage).blocks) :
    (g.projection always usage).members.get? n.1 = g.childrenExpr .document n.2 := by
  unfold projection at hkeys hn ⊢
  split at hn
  · cases hn
  · next hused =>
    simp only [hused, Bool.false_eq_true, if_false] at hkeys ⊢
    obtain ⟨⟨name, e, b⟩, hmem, rfl⟩ := List.mem_map.mp hn
    obtain ⟨_, _, hfield⟩ := List.mem_filterMap.mp hmem
    obtain ⟨_, hvalue, heq⟩ := Option.map_eq_some_iff.mp hfield
    cases heq
    rw [hvalue]
    apply Members.get?_ofList_append
    · simpa [Function.comp_def] using hkeys
    · exact List.mem_map.mpr ⟨_, hmem, rfl⟩

/-- Where the keys of a projection differ, each has its own value: kept paths are kept, and list
variables and negated blocks are computed by their own expressions. -/
theorem get?_projection (hused : usage.isEmpty = false)
    (hkeys : (keptPaths usage.baseFields always ++ (g.projection always usage).lists ++
      (g.projection always usage).blocks.map (·.1)).Nodup) :
    (∀ path ∈ keptPaths usage.baseFields always,
      (g.projection always usage).members.get? path = some (.int 1)) ∧
    (∀ name ∈ (g.projection always usage).lists,
      (g.projection always usage).members.get? name = g.listField? name) ∧
    ∀ n ∈ (g.projection always usage).blocks,
      (g.projection always usage).members.get? n.1 = g.childrenExpr .document n.2 := by
  have hblocks : ((g.projection always usage).blocks.map (·.1)).Nodup :=
    hkeys.of_append_right
  refine and_assoc.mp ⟨?_, fun n hn ↦ get?_projection_blocks hblocks hn⟩
  simp only [projection, hused, Bool.false_eq_true, if_false, List.map_map] at hkeys ⊢
  generalize hentries : (_ ++ _ ++ _ : List (String × Json)) = entries
  have hnodup : (entries.map (·.1)).Nodup := by
    rw [← hentries]
    simpa [Function.comp_def] using hkeys
  refine ⟨fun path hp ↦ ?_, fun name hn ↦ ?_⟩
  · apply Members.get?_ofList hnodup
    rw [← hentries]
    exact List.mem_append_left _ (List.mem_append_left _ (List.mem_map.mpr ⟨path, hp, rfl⟩))
  · obtain ⟨⟨name', e⟩, hmem, rfl⟩ := List.mem_map.mp hn
    obtain ⟨_, _, hfield⟩ := List.mem_filterMap.mp hmem
    obtain ⟨_, hvalue, heq⟩ := Option.map_eq_some_iff.mp hfield
    cases heq
    rw [hvalue]
    apply Members.get?_ofList hnodup
    rw [← hentries]
    exact List.mem_append_left _ (List.mem_append_right _ hmem)

end Generator

namespace Context

variable (ctx : Context) (blocks : List Block)

/-- The paths that the projection of a filter keeps. -/
def keptPaths : List String :=
  if (ctx.usage blocks).isEmpty then []
  else Generator.keptPaths (ctx.usage blocks).baseFields ctx.settings.alwaysProject

/-- The list variables that the projection of a filter computes. -/
def computedLists : List String := (ctx.projection blocks).lists

/-- The names under which the projection of a filter computes negated named blocks. -/
def computedBlocks : List String := (ctx.projection blocks).blocks.map (·.1)

/-- The keys of a projection of the three kinds differ, and none leads to another. -/
structure KeysApart : Prop where
  kept_lists : (ctx.keptPaths blocks).Disjoint (ctx.computedLists blocks)
  kept_blocks : (ctx.keptPaths blocks).Disjoint (ctx.computedBlocks blocks)
  lists_blocks : (ctx.computedLists blocks).Disjoint (ctx.computedBlocks blocks)
  noCollision : ∀ a ∈ (ctx.projection blocks).members.keys,
    ∀ b ∈ (ctx.projection blocks).members.keys, ¬ IsAncestor a b

/-- No name that the projection computes leads to a path that is used or always kept, and no negated
named block bears the name of a computed list variable. -/
structure NamesFree : Prop where
  paths : ∀ name ∈ ctx.computedLists blocks ++ ctx.computedBlocks blocks, ∀ path,
    IsAskedFor (ctx.usage blocks).baseFields ctx.settings.alwaysProject path → ¬ LeadsTo name path
  lists_blocks : (ctx.computedLists blocks).Disjoint (ctx.computedBlocks blocks)

variable {ctx blocks}

/-- The keys of a projection are of three kinds. -/
theorem mem_keys_iff {key : String} : key ∈ (ctx.projection blocks).members.keys ↔
    key ∈ ctx.keptPaths blocks ∨ key ∈ ctx.computedLists blocks ∨
      key ∈ ctx.computedBlocks blocks := by
  rw [projection, Generator.mem_projection_keys_iff]
  unfold keptPaths
  split
  · next h => simp [h, computedLists, computedBlocks, projection]
  · next h => simp [h, computedLists, computedBlocks, projection]

/-- Names that the projection of a filter computes have no dot, in a valid catalog. -/
theorem hasNoDot_of_computed (hvalid : ctx.catalog.validate ctx.schema = .ok ()) {name : String}
    (hn : name ∈ ctx.computedLists blocks ++ ctx.computedBlocks blocks) : HasNoDot name := by
  rcases List.mem_append.mp hn with h | h
  · obtain ⟨v, hv⟩ := Generator.projection_lists.2 name h
    exact Catalog.hasNoDot_of_validate hvalid hv
  · apply (Usage.wellNamed_negatedBlocks ctx.resolver blocks).noDot
    exact (Generator.projection_blocks.map _).subset h

/-- Negated blocks are computed under names that differ. -/
theorem nodup_computedBlocks : (ctx.computedBlocks blocks).Nodup :=
  (Generator.projection_blocks.map _).nodup
    (Usage.wellNamed_negatedBlocks ctx.resolver blocks).nodup

/-- The kept paths are each there once, and none leads to another. -/
theorem keptPaths_apart : (ctx.keptPaths blocks).Nodup ∧
    ∀ a ∈ ctx.keptPaths blocks, ∀ b ∈ ctx.keptPaths blocks, ¬ IsAncestor a b := by
  unfold keptPaths
  split
  · simp
  · refine ⟨Generator.nodup_keptPaths, fun a ha b hb hab ↦ ?_⟩
    exact (Generator.mem_keptPaths_iff.mp hb).2 a hab (Generator.mem_keptPaths_iff.mp ha).1

/-- A computed name leads to a path that is asked for exactly when it leads to a kept one: with no
dot, it is the first part of both. -/
theorem leadsTo_askedFor_iff (hvalid : ctx.catalog.validate ctx.schema = .ok ()) {name : String}
    (hn : name ∈ ctx.computedLists blocks ++ ctx.computedBlocks blocks) :
    (∃ path, IsAskedFor (ctx.usage blocks).baseFields ctx.settings.alwaysProject path ∧
      LeadsTo name path) ↔ ∃ path ∈ ctx.keptPaths blocks, LeadsTo name path := by
  have hused : (ctx.usage blocks).isEmpty = false := by
    rw [Bool.eq_false_iff]
    intro hempty
    simp [computedLists, computedBlocks, projection, Generator.projection, hempty] at hn
  have hkept : ctx.keptPaths blocks =
      Generator.keptPaths (ctx.usage blocks).baseFields ctx.settings.alwaysProject := by
    simp [keptPaths, hused]
  rw [hkept]
  constructor
  · rintro ⟨path, hasked, hleads⟩
    obtain ⟨key, hkey, hkeyLeads⟩ := Generator.exists_keptPath hasked
    refine ⟨key, hkey, ?_⟩
    rcases hleads.total hkeyLeads with h | rfl | h
    · exact h
    · exact Or.inl rfl
    · exact absurd h (hasNoDot_of_computed hvalid hn).not_isAncestor
  · rintro ⟨path, hpath, hleads⟩
    exact ⟨path, (Generator.mem_keptPaths_iff.mp hpath).1, hleads⟩

/-- With names that are free, all keys of a projection differ. -/
theorem NamesFree.nodup (hvalid : ctx.catalog.validate ctx.schema = .ok ())
    (h : ctx.NamesFree blocks) :
    (ctx.keptPaths blocks ++ ctx.computedLists blocks ++ ctx.computedBlocks blocks).Nodup := by
  have hlists : (ctx.computedLists blocks).Nodup :=
    Generator.projection_lists.1.nodup nodup_sortedNames
  have hblocks : (ctx.computedBlocks blocks).Nodup := nodup_computedBlocks
  have hkept : (ctx.keptPaths blocks).Disjoint
      (ctx.computedLists blocks ++ ctx.computedBlocks blocks) := by
    intro name hkept hn
    obtain ⟨path, hasked, hleads⟩ :=
      (leadsTo_askedFor_iff hvalid hn).mpr ⟨name, hkept, Or.inl rfl⟩
    exact h.paths name hn path hasked hleads
  rw [List.append_assoc]
  exact keptPaths_apart.1.append (hlists.append hblocks h.lists_blocks) hkept

/-- In a valid catalog, the keys of a projection are told apart exactly when the names are free. -/
theorem keysApart_iff (hvalid : ctx.catalog.validate ctx.schema = .ok ()) :
    ctx.KeysApart blocks ↔ ctx.NamesFree blocks := by
  constructor
  · intro h
    refine ⟨fun name hn path hasked hleads ↦ ?_, h.lists_blocks⟩
    obtain ⟨key, hkey, hkeyLeads⟩ :=
      (leadsTo_askedFor_iff hvalid hn).mp ⟨path, hasked, hleads⟩
    rcases hkeyLeads with rfl | hanc
    · rcases List.mem_append.mp hn with hl | hb
      · exact h.kept_lists hkey hl
      · exact h.kept_blocks hkey hb
    · apply h.noCollision name _ key (mem_keys_iff.mpr (Or.inl hkey)) hanc
      exact mem_keys_iff.mpr (Or.inr (List.mem_append.mp hn))
  · intro h
    have hfree : ∀ name ∈ ctx.computedLists blocks ++ ctx.computedBlocks blocks,
        ∀ path ∈ ctx.keptPaths blocks, ¬ LeadsTo name path := by
      intro name hn path hpath hleads
      obtain ⟨p, hasked, hp⟩ := (leadsTo_askedFor_iff hvalid hn).mpr ⟨path, hpath, hleads⟩
      exact h.paths name hn p hasked hp
    refine ⟨fun name hk hl ↦ ?_, fun name hk hb ↦ ?_, h.lists_blocks, fun a ha b hb hab ↦ ?_⟩
    · exact hfree name (List.mem_append_left _ hl) name hk (Or.inl rfl)
    · exact hfree name (List.mem_append_right _ hb) name hk (Or.inl rfl)
    · rw [mem_keys_iff, ← List.mem_append] at ha hb
      rcases hb with hb | hb
      · rcases ha with ha | ha
        · exact keptPaths_apart.2 a ha b hb hab
        · exact hfree a ha b hb (Or.inr hab)
      · exact (hasNoDot_of_computed hvalid hb).not_isAncestor hab

/-- The keys of the projection that a filter is compiled to, in a valid catalog where no definition
leads back to itself, are told apart exactly when the names are free; and then every kept path is
kept, and every list variable and every negated block is computed by its own expression. -/
theorem projection_keysApart_iff (hvalid : ctx.catalog.validate ctx.schema = .ok ())
    (hacyclic : ∀ name, ¬ TransGen ctx.resolver.Enters name name) :
    ∃ pipeline, ctx.compile? blocks = some pipeline ∧
      pipeline.projection.getD [] = (ctx.projection blocks).members ∧
      (ctx.KeysApart blocks ↔ ctx.NamesFree blocks) ∧
      (ctx.NamesFree blocks →
        (∀ path ∈ ctx.keptPaths blocks,
          (ctx.projection blocks).members.get? path = some (.int 1)) ∧
        (∀ name ∈ ctx.computedLists blocks,
          (ctx.projection blocks).members.get? name = ctx.generator.listField? name) ∧
        ∀ n ∈ (ctx.projection blocks).blocks,
          (ctx.projection blocks).members.get? n.1 =
            ctx.generator.childrenExpr .document n.2) := by
  have hcircular : ctx.resolver.isCircular blocks (ctx.usage blocks) = false :=
    ctx.resolver.isCircular_eq_false_iff.mpr fun _ _ name _ ↦ hacyclic name
  refine ⟨_, by rw [compile?, hcircular]; rfl, ?_, keysApart_iff hvalid, fun h ↦ ?_⟩
  · simp only
    split
    · next he => exact (List.isEmpty_iff.mp he).symm
    · rfl
  · have hnodup := h.nodup hvalid
    by_cases hempty : (ctx.usage blocks).isEmpty = true
    · simp [keptPaths, computedLists, projection, Generator.projection, hempty]
    · have hused : (ctx.usage blocks).isEmpty = false := by simpa using hempty
      have hkept : ctx.keptPaths blocks =
          Generator.keptPaths (ctx.usage blocks).baseFields ctx.settings.alwaysProject := by
        simp [keptPaths, hused]
      rw [hkept] at hnodup ⊢
      exact Generator.get?_projection hused hnodup

/-- A context whose documents have a record `candidate` with a number `jd`. -/
def candidates : Context where
  schema := .ofFields
    [⟨"candidate", .node ⟨"record", some "C", some [⟨"jd", .named "double", none⟩], none⟩, none⟩]
  catalog := .empty
  settings := .default

/-- A filter that asks for a `candidate.jd` above 1 and has a negated block named `candidate`. -/
def shadowingFilter : Block where
  id := "root"
  logic := .and
  children :=
    [.condition ⟨"c", some "candidate.jd", some (.compare .gt), .literal (.int 1), none⟩,
      .block ⟨"b", .and,
        [.condition ⟨"d", some "x", some (.compare .gt), .literal (.int 1), none⟩],
        some "candidate", false⟩]
  name := none
  mustHold := true

/-- What the keys of the projection of the filter are is decided by the names that it uses. -/
theorem shadowingFilter_keysApart_iff :
    ∃ pipeline, candidates.compile? [shadowingFilter] = some pipeline ∧
      pipeline.projection.getD [] = (candidates.projection [shadowingFilter]).members ∧
      (candidates.KeysApart [shadowingFilter] ↔ candidates.NamesFree [shadowingFilter]) := by
  have hacyclic : ∀ name, ¬ TransGen candidates.resolver.Enters name name :=
    candidates.resolver.acyclic_iff.mpr fun name hn ↦ by cases hn
  obtain ⟨pipeline, hcompile, hprojection, hiff, -⟩ :=
    @projection_keysApart_iff candidates [shadowingFilter] rfl hacyclic
  exact ⟨pipeline, hcompile, hprojection, hiff⟩

/-- The catalog is valid, and the filter is compiled to a projection in which the name of the
negated block leads to a kept path. -/
theorem shadowingFilter_not_keysApart :
    candidates.catalog.validate candidates.schema = .ok () ∧
      candidates.resolver.isCircular [shadowingFilter] (candidates.usage [shadowingFilter]) =
        false ∧
      ¬ candidates.KeysApart [shadowingFilter] := by
  refine ⟨rfl, by decide +kernel, fun h ↦ ?_⟩
  have hname : "candidate" ∈ candidates.computedBlocks [shadowingFilter] := by decide +kernel
  have hpath : "candidate.jd" ∈ (candidates.usage [shadowingFilter]).baseFields := by
    decide +kernel
  have hasked : IsAskedFor (candidates.usage [shadowingFilter]).baseFields
      candidates.settings.alwaysProject "candidate.jd" :=
    ⟨"candidate.jd", List.mem_append_left _ hpath, by decide +kernel⟩
  have hfree := (keysApart_iff rfl).mp h
  exact hfree.paths "candidate" (List.mem_append_right _ hname) "candidate.jd" hasked
    (Or.inr ⟨"jd", rfl⟩)

end Context
end FilterPipeline
