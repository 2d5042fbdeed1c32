import FilterPipeline.Proofs.FormLaws
import FilterPipeline.Proofs.PlacedQueries

/-!
# Scopes in a pipeline

Whether a reference begins at the document's root or at the element at hand is decided where it is
compiled, and a list variable that an element predicate names jumps back to the root. Main
statement: where no name looks like a reference or like a path of an element, a pipeline speaks of
the element at hand in element predicates only, and an element predicate refers to nothing else but
the arrays of the list variables that it writes out.
-/

namespace FilterPipeline

open Relation Json

/-- A text refers, from the document's root, to the array of a list condition, or to what its
aggregate runs over. -/
def ListCondition.IsReference (d : ListCondition) (s : String) : Prop :=
  ∃ array ∈ d.arrayPath?, s = "$" ++ array ∨
    ∃ sub ∈ d.subFieldName?, s = "$" ++ array ++ "." ++ sub

/-- A string is no reference, refers to the element at hand or is an allowed reference, patterns of
regular expressions aside. -/
def RefersWithin (allowed : String → Prop) (place : Place) (s : String) : Prop :=
  place.pattern = false → beginsWith "$" s = true → beginsWith "$$this" s = true ∨ allowed s

/-- A string keeps the scopes: it speaks of the element at hand in element predicates only, and
there it refers to nothing else but what is allowed. -/
structure KeepsScope (allowed : String → Prop) (place : Place) (s : String) : Prop where
  element : beginsWith "$$this" s = true → place.inside = true
  inside : place.inside = true → RefersWithin allowed place s

variable {allowed : String → Prop} {place : Place} {path s : String}

private theorem beginsWith_dollar_of_this (h : beginsWith "$$this" s = true) :
    beginsWith "$" s = true := by
  obtain ⟨rest, rfl⟩ := beginsWith_iff.mp h
  exact beginsWith_iff.mpr ⟨"$this" ++ rest, by simp only [← String.append_assoc]; rfl⟩

/-- A reference from the document's root does not speak of the element at hand. -/
theorem not_beginsWith_this (h : beginsWith "$" path = false) :
    ¬ beginsWith "$$this" ("$" ++ path) = true := by
  intro hthis
  obtain ⟨rest, hrest⟩ := beginsWith_iff.mp hthis
  have hpath : path = "$" ++ ("this" ++ rest) := by
    have hlist := congrArg String.toList hrest
    simp only [String.toList_append] at hlist
    rw [← String.toList_inj, String.toList_append, String.toList_append]
    exact (List.cons.inj hlist).2
  rw [beginsWith_iff.mpr ⟨_, hpath⟩] at h
  cases h

/-- What some references are allowed by is a rule on places. -/
theorem isPlaceRule_refersWithin : IsPlaceRule (RefersWithin allowed) where
  plain _ s hs _ h := by
    rw [h] at hs
    cases hs
  dollar _ h := by cases h
  element _ hs _ _ := Or.inl hs

/-- To keep the scopes is a rule on places that allows all references from the document's root
outside of element predicates. -/
theorem isMatchRule_keepsScope : IsMatchRule (KeepsScope allowed) where
  plain place s hs := by
    refine ⟨fun h ↦ ?_, fun _ ↦ isPlaceRule_refersWithin.plain place s hs⟩
    rw [beginsWith_dollar_of_this h] at hs
    cases hs
  dollar inside := ⟨fun h ↦ absurd h (by decide), fun _ ↦ isPlaceRule_refersWithin.dollar inside⟩
  element s hs := ⟨fun _ ↦ rfl, fun _ ↦ isPlaceRule_refersWithin.element s hs⟩
  root path hpath := ⟨fun h ↦ absurd h (not_beginsWith_this hpath), fun h ↦ by cases h⟩

/-- The references to a plain array are those to plain paths. -/
theorem ListCondition.IsReference.exists_path {d : ListCondition} (h : d.IsReference s)
    (hd : d.IsPlain) : ∃ path, beginsWith "$" path = false ∧ s = "$" ++ path := by
  obtain ⟨array, harray, rfl | ⟨sub, -, rfl⟩⟩ := h
  · exact ⟨array, hd.array array harray, rfl⟩
  · exact ⟨array ++ "." ++ sub, beginsWith_dollar_below (hd.array array harray) sub,
      by simp only [String.append_assoc]⟩

/-- An array of the document is referred to from the document's root. -/
theorem ListQuery.arrayKeeps_of_isReference {P : Place → String → Prop} {d : ListCondition}
    {inside : Bool} (hd : d.IsPlain)
    (hdocument : ∀ path ∈ d.arrayPath?, isElementPath path = false)
    (h : ∀ s, d.IsReference s → P ⟨inside, false⟩ s) : ArrayKeeps P .document inside d := by
  have hreference : ∀ path ∈ d.arrayPath?, Scope.document.reference path = "$" ++ path :=
    fun path hpath ↦ IsDocumentPath.reference ⟨hd.array path hpath, hdocument path hpath⟩
  constructor
  · intro path hpath
    rw [hreference path hpath]
    exact h _ ⟨path, hpath, Or.inl rfl⟩
  · intro path hpath sub hsub
    rw [hreference path hpath]
    exact h _ ⟨path, hpath, Or.inr ⟨sub, hsub, rfl⟩⟩

namespace Context

/-- No field or array of a filter outside of element predicates, no array of a list variable and no
leaf of a formula is a path of an element. -/
structure StaysInDocument (ctx : Context) (blocks : List Block) : Prop where
  field : ∀ c ∈ blocks.flatMap Block.ownConditions, ∀ path ∈ c.fieldName?,
    isElementPath path = false
  array : ∀ c ∈ blocks.flatMap Block.ownConditions, ∀ d ∈ c.operand.list?, ∀ path ∈ d.arrayPath?,
    isElementPath path = false
  listed : ∀ v ∈ ctx.catalog.lists, ∀ path ∈ v.condition.arrayPath?, isElementPath path = false
  formulas : ∀ v ∈ ctx.catalog.arithmetic, ∀ text ∈ v.formula?,
    ∀ leaf ∈ (ctx.readFormula text).fields, isElementPath leaf = false

/-- A text refers to the array of some list variable, or to what its aggregate runs over. -/
def IsListReference (ctx : Context) (s : String) : Prop :=
  ∃ v ∈ ctx.catalog.lists, v.condition.IsReference s

/-- A text in a condition of an element predicate comes with what is inside of it: it stands in the
element predicate of the condition, or it refers to the array of a list variable that writing out
the condition writes out. -/
def ComesWith (ctx : Context) (c : Condition) (element : Option Json) (s : String) : Prop :=
  (∃ p ∈ element, s ∈ p.strings) ∨ ∃ name v, ctx.generator.WritesOut c name ∧
    ctx.catalog.list? name = some v ∧ v.condition.IsReference s

variable {ctx : Context} {blocks : List Block}

private theorem StaysInDocument.leaves (hdocument : ctx.StaysInDocument blocks) {c : Condition} :
    ∀ leaf ∈ ctx.generator.formulaLeaves c, isElementPath leaf = false := by
  intro leaf hleaf
  obtain ⟨field, -, _, t, -, ht, hmem⟩ := Generator.mem_formulaLeaves_iff.mp hleaf
  obtain ⟨v, hv, text, htext, hmem⟩ := Resolver.exists_formula_of_mem_expandWithin ht hmem
  exact hdocument.formulas v hv text htext leaf hmem

section Pipelines

variable (hplain : ctx.IsDollarless blocks) (hdocument : ctx.StaysInDocument blocks)

include hplain hdocument

/-- Writing out list variables that name just each other keeps to a rule where the references to
their arrays do. -/
theorem variableKeeps_of_isReference {P : Place → String → Prop} (hP : IsPlaceRule P)
    {L : String → Prop} (hclosed : ∀ name, L name → ∀ b ∈ ctx.generator.definitionNames name, L b)
    (h : ∀ name, L name → ∀ v, ctx.catalog.list? name = some v → ∀ inside s,
      v.condition.IsReference s → P ⟨inside, false⟩ s) :
    ∀ name, L name → ∀ v, ctx.catalog.list? name = some v → ctx.generator.VariableKeeps P v := by
  refine hplain.variableKeeps hP hclosed fun name hn v hv inside ↦ ?_
  have hmem : v ∈ ctx.catalog.lists := Catalog.mem_of_list? hv
  exact ListQuery.arrayKeeps_of_isReference (hplain.lists v hmem) (hdocument.listed v hmem)
    (h name hn v hv inside)

/-- Writing out a list variable keeps the scopes. -/
theorem variableKeeps_keepsScope {name : String} {v : ListVariable}
    (hv : ctx.catalog.list? name = some v) :
    ctx.generator.VariableKeeps (KeepsScope ctx.IsListReference) v := by
  refine variableKeeps_of_isReference hplain hdocument isMatchRule_keepsScope.toIsPlaceRule
    (L := fun _ ↦ True) (fun _ _ _ _ ↦ trivial) (fun name _ v hv inside s hs ↦ ?_) name trivial v hv
  have hmem : v ∈ ctx.catalog.lists := Catalog.mem_of_list? hv
  obtain ⟨path, hpath, rfl⟩ := hs.exists_path (hplain.lists v hmem)
  exact ⟨fun hthis ↦ absurd hthis (not_beginsWith_this hpath), fun _ _ _ ↦ Or.inr ⟨v, hmem, hs⟩⟩

/-- What a condition outside of element predicates is compiled from keeps the scopes, where
references to the arrays of list variables are allowed. -/
theorem matchKeeps_keepsScope {c : Condition} (hc : c ∈ blocks.flatMap Block.ownConditions) :
    ctx.generator.MatchKeeps (KeepsScope ctx.IsListReference) c := by
  have hrule : IsMatchRule (KeepsScope ctx.IsListReference) := isMatchRule_keepsScope
  obtain ⟨root, hroot, hown⟩ := List.mem_flatMap.mp hc
  have hconditions : ∀ c' ∈ c :: c.operand.elementConditions, c' ∈ ctx.allConditions blocks :=
    fun c' hc' ↦ List.mem_append_left _
      (List.mem_flatMap.mpr ⟨root, hroot, Block.ownConditions_subset root hown hc'⟩)
  have hdollarless := hplain.conditions c (hconditions c List.mem_cons_self)
  have hreference : ∀ path, IsDocumentPath path →
      KeepsScope ctx.IsListReference ⟨false, false⟩ (Scope.document.reference path) := by
    intro path hpath
    have heq : Scope.document.reference path = "$" ++ path := hpath.reference
    rw [heq]
    exact hrule.root path hpath.1
  have hleaf : ∀ leaf ∈ ctx.generator.formulaLeaves c,
      KeepsScope ctx.IsListReference ⟨false, false⟩ (Scope.document.reference leaf) :=
    fun leaf hleaf ↦ hreference leaf ⟨hplain.leaves leaf hleaf, hdocument.leaves leaf hleaf⟩
  refine ⟨hplain.documentKeeps hconditions ?_ (fun d hd ↦ ?_) ?_ fun leaf hl _ ↦ hleaf leaf hl,
    hdollarless, hleaf⟩
  · exact fun c' _ name _ v hv ↦ variableKeeps_keepsScope hplain hdocument hv
  · have hd' := hdollarless.list d hd
    refine ListQuery.arrayKeeps_of_isReference hd' (hdocument.array c hc d hd) fun s hs ↦ ?_
    obtain ⟨path, hpath, rfl⟩ := hs.exists_path hd'
    exact hrule.root path hpath
  · exact fun field hf _ _ ↦ hreference field
      ⟨hdollarless.field field hf, hdocument.field c hc field hf⟩

/-- All strings of the projection keep the scopes. -/
theorem keepsScope_projection (hnames : ∀ v ∈ ctx.catalog.lists, beginsWith "$" v.key = false) :
    (Json.obj (ctx.projection blocks).members).Keeps (KeepsScope ctx.IsListReference) false := by
  have hrule : IsMatchRule (KeepsScope ctx.IsListReference) := isMatchRule_keepsScope
  refine keeps_obj_iff.mpr (Generator.keeps_projection hrule.toIsPlaceRule hplain.options
    (fun name hn v hv ↦ ⟨?_, ?_⟩) fun n hn ↦ ⟨?_, fun c hc ↦ ?_⟩)
  · rw [← Catalog.key_of_list? hv]
    exact isTransparent_of_beginsWith (hnames v (Catalog.mem_of_list? hv))
  · exact variableKeeps_keepsScope hplain hdocument hv
  · exact isTransparent_of_beginsWith (Usage.isWord_of_mem_negatedBlocks hn).1.beginsWith_dollar
  · obtain ⟨root, hroot, hmem⟩ := List.mem_flatMap.mp (Usage.mem_negatedBlocks hn)
    exact (matchKeeps_keepsScope hplain hdocument (List.mem_flatMap.mpr
      ⟨root, hroot, Block.ownConditions_of_negated root hmem hc⟩)).toDocumentKeeps

/-- All strings of the match keep the scopes. -/
theorem keepsScope_filterMembers :
    (Json.obj (ctx.filterMembers blocks)).Keeps (KeepsScope ctx.IsListReference) false := by
  have hrule : IsMatchRule (KeepsScope ctx.IsListReference) := isMatchRule_keepsScope
  refine keeps_obj_iff.mpr (keeps_memberInvariant.filterMembers fun root hroot q hq ↦ ?_)
  have hinvariant := Generator.keeps_queryInvariant (g := ctx.generator)
    (p := ctx.projection blocks) hrule hplain.options fun n hn ↦ isTransparent_of_beginsWith
      (Usage.isWord_of_mem_negatedBlocks (Generator.projection_blocks.mem hn)).1.beginsWith_dollar
  refine hinvariant.block root (fun c hc ↦ ?_) q hq
  exact matchKeeps_keepsScope hplain hdocument
    (List.mem_flatMap.mpr ⟨root, hroot, Block.plainConditions_subset_own root hc⟩)

/-- A condition of an element predicate refers to the element at hand and to the arrays of list
variables that writing it out writes out, besides what its own element predicate refers to. -/
theorem refersWithin_conditionExpr {c : Condition} (hc : c ∈ ctx.allConditions blocks)
    {array : String} {element : Option Json} {e : Json}
    (he : ctx.generator.conditionExpr (.element array) c element = some e) :
    e.Keeps (RefersWithin (ctx.ComesWith c element)) true := by
  have hrule : IsPlaceRule (RefersWithin (ctx.ComesWith c element)) := isPlaceRule_refersWithin
  have hvariable := variableKeeps_of_isReference hplain hdocument hrule
    (L := ctx.generator.WritesOut c) (fun name ⟨a, ha, hchain⟩ b hb ↦ ⟨a, ha, hchain.tail hb⟩)
    fun name hn v hv _ s hs _ _ ↦ Or.inr (Or.inr ⟨name, v, hn, hv, hs⟩)
  have hkeeps := hplain.elementKeeps hc fun name hn v hv ↦ hvariable name ⟨name, hn, .refl⟩ v hv
  refine Generator.keeps_conditionExpr hrule hplain.options (hkeeps.conditionKeeps hrule array)
    (fun p hp x hx _ _ ↦ ?_) he
  refine Or.inr (Or.inl ⟨p, hp, ?_⟩)
  rw [← map_snd_placed "" ⟨true, false⟩ p]
  exact List.mem_map_of_mem hx

end Pipelines

private theorem isTransparent_key (stage : Stage) : IsTransparent stage.key := by
  cases stage with
  | project content =>
    rw [Stage.key]
    decide
  | filter content =>
    rw [Stage.key]
    decide

/-- Pipelines keep the scopes of references. Where no definition leads back to itself, no name,
literal or option looks like a reference, and nothing outside of element predicates is a path of an
element, a filter has a pipeline in which each string that speaks of the element at hand stands in
what is mapped over an array or in what an array is filtered by. There, patterns aside, all other
references are to arrays of list variables, or to what their aggregates run over. They come from the
list variables that a condition writes out: whatever else a condition of an element predicate refers
to, its field and the paths at the leaves of its formula, is referred to from the element at hand.
-/
theorem pipeline_keeps_scopes (hacyclic : ∀ name, ¬ TransGen ctx.resolver.Enters name name)
    (hplain : ctx.IsDollarless blocks)
    (hnames : ∀ v ∈ ctx.catalog.lists, beginsWith "$" v.key = false)
    (hdocument : ctx.StaysInDocument blocks) :
    (∃ pipeline, ctx.compile? blocks = some pipeline ∧
      pipeline.toJson.Keeps (KeepsScope ctx.IsListReference) false) ∧
    ∀ c ∈ ctx.allConditions blocks, ∀ array element e,
      ctx.generator.conditionExpr (.element array) c element = some e →
        e.Keeps (RefersWithin (ctx.ComesWith c element)) true := by
  refine ⟨?_, fun c hc array element e he ↦ refersWithin_conditionExpr hplain hdocument hc he⟩
  obtain ⟨pipeline, hcompile, hprojection, hfilter, -⟩ := ctx.exists_compile?_eq hacyclic blocks
  refine ⟨pipeline, hcompile, keeps_arr_iff.mpr fun s hs ↦ ?_⟩
  obtain ⟨stage, hstage, rfl⟩ := List.mem_map.mp hs
  rw [Stage.toJson, keeps_single_iff (isTransparent_key stage)]
  rcases List.mem_append.mp hstage with hstage | hstage
  · obtain ⟨content, hcontent, rfl⟩ := Option.map_eq_some_iff.mp (Option.mem_toList.mp hstage)
    rw [hcontent, Option.getD_some] at hprojection
    rw [Stage.content, hprojection]
    exact keepsScope_projection hplain hdocument hnames
  · obtain ⟨content, hcontent, rfl⟩ := Option.map_eq_some_iff.mp (Option.mem_toList.mp hstage)
    rw [hcontent, Option.getD_some] at hfilter
    rw [Stage.content, hfilter]
    exact keepsScope_filterMembers hplain hdocument

/-- The pipeline of the filters on `observations` keeps the scopes: their list variable `late` names
`low` in its element predicate, and a formula in a negated block does. -/
theorem observationFilters_keep_scopes :
    (∃ pipeline, observations.compile? observationFilters = some pipeline ∧
      pipeline.toJson.Keeps (KeepsScope observations.IsListReference) false) ∧
    ∀ c ∈ observations.allConditions observationFilters, ∀ array element e,
      observations.generator.conditionExpr (.element array) c element = some e →
        e.Keeps (RefersWithin (observations.ComesWith c element)) true := by
  apply pipeline_keeps_scopes
  · exact observations.resolver.acyclic_iff.mpr (by decide +kernel)
  · exact ⟨by decide +kernel, by decide +kernel, by decide +kernel, by decide +kernel⟩
  · decide +kernel
  · exact ⟨by decide +kernel, by decide +kernel, by decide +kernel, by decide +kernel⟩

end Context
end FilterPipeline
