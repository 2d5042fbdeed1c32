import FilterPipeline.Proofs.CompleteInlining
import FilterPipeline.Proofs.DocumentConditions
import FilterPipeline.Proofs.PlacedExpressions
import FilterPipeline.Proofs.WellFormedPipelines

/-!
# References in projections keep to their places

A list variable is written out from the document's root wherever it is named, and its element
predicate may name others. Main statements: on any set of list variables that is closed under
naming, references keep to a rule in all that is written out where those to their arrays do; and the
projection keeps to a rule where the conditions and list variables that it is computed from do.
-/

namespace FilterPipeline

open Relation Fragment Json

/-- What a condition mentions looks like no reference. -/
structure Condition.IsDollarless (c : Condition) : Prop where
  field : ∀ field ∈ c.fieldName?, beginsWith "$" field = false
  literal : ∀ v ∈ c.operand.literal?, v.IsPlain
  list : ∀ d ∈ c.operand.list?, d.IsPlain

/-- Whether a condition mentions anything like a reference is decided by its field and its literals.
-/
instance (c : Condition) : Decidable c.IsDollarless :=
  decidable_of_iff ((∀ field ∈ c.fieldName?, beginsWith "$" field = false) ∧
      (∀ v ∈ c.operand.literal?, v.IsPlain) ∧ ∀ d ∈ c.operand.list?, d.IsPlain)
    ⟨fun ⟨h, h', h''⟩ ↦ ⟨h, h', h''⟩, fun ⟨h, h', h''⟩ ↦ ⟨h, h', h''⟩⟩

/-- The leaves of a formula look like no reference. -/
def Formula.IsDollarless (t : Formula) : Prop := ∀ leaf ∈ t.fields, beginsWith "$" leaf = false

/-- Whether a leaf looks like a reference is decided for one after the other. -/
instance (t : Formula) : Decidable t.IsDollarless :=
  inferInstanceAs (Decidable (∀ leaf ∈ t.fields, beginsWith "$" leaf = false))

namespace Generator

variable (g : Generator)

/-- The list variables that a condition names: the one that it is about, or those at the leaves of
its formula. -/
def namedLists (c : Condition) : List String :=
  (c.fieldName?.toList ++ g.formulaLeaves c).filter fun name ↦ (g.resolver.classify name).isList

/-- The list variables that the element predicate of a list variable names. -/
def definitionNames (name : String) : List String :=
  ((g.resolver.catalog.list? name).map fun v ↦
    (Operand.list v.condition).elementConditions.flatMap g.namedLists).getD []

/-- Writing out a condition writes out a list variable that it names, or one that the element
predicate of such a variable leads to. -/
def WritesOut (c : Condition) (name : String) : Prop :=
  ∃ a ∈ g.namedLists c, ReflTransGen (Refers g.definitionNames) a name

/-- A condition of an element predicate looks like no reference, and the list variables that it
names keep to a rule. -/
structure ElementKeeps (P : Place → String → Prop) (c : Condition) : Prop where
  plain : c.IsDollarless
  leaves : ∀ leaf ∈ g.formulaLeaves c, beginsWith "$" leaf = false
  named : ∀ name ∈ g.namedLists c, ∀ v, g.resolver.catalog.list? name = some v →
    g.VariableKeeps P v

variable {g} {P : Place → String → Prop} {name : String} {v : ListVariable} {e : Json}

/-- The list variable that a condition is about, and those at the leaves of its formula, are ones
that it names. -/
theorem mem_namedLists {c : Condition} {l : ListOperator}
    (h : name ∈ c.fieldName? ∨ name ∈ g.formulaLeaves c)
    (hv : g.resolver.classify name = .list v l) : name ∈ g.namedLists c := by
  rw [namedLists, List.mem_filter, List.mem_append, Option.mem_toList]
  exact ⟨h, by rw [hv]; rfl⟩

section Elements

variable (hP : IsPlaceRule P) (hoptions : beginsWith "$" g.regexOptions = false)

include hP

/-- In an element predicate a condition refers to the element at hand, or to the arrays of list
variables that it writes out. -/
theorem ElementKeeps.conditionKeeps {c : Condition} (hc : g.ElementKeeps P c) (array : String) :
    g.ConditionKeeps P (.element array) c := by
  have hpath : ∀ path, beginsWith "$" path = false →
      P ⟨true, false⟩ (Scope.reference (.element array) path) :=
    fun path h ↦ hP.element _ (beginsWith_this_reference h)
  refine ⟨hc.plain.literal, fun d hd ↦ ⟨hc.plain.list d hd, ?_, ?_⟩, ?_, ?_, ?_⟩
  · exact fun path h ↦ hpath path ((hc.plain.list d hd).array path h)
  · intro path h sub _
    rw [String.append_assoc]
    exact hP.element _ (beginsWith_append
      (beginsWith_this_reference ((hc.plain.list d hd).array path h)) ("." ++ sub))
  · exact fun field hf _ _ ↦ hpath field (hc.plain.field field hf)
  · intro field hf v l hv
    exact hc.named field (mem_namedLists (Or.inl hf) hv) v (Resolver.classify_eq_list_iff.mp hv).1
  · intro leaf hleaf
    refine ⟨fun v a hv ↦ ?_, fun _ ↦ hpath leaf (hc.leaves leaf hleaf)⟩
    exact hc.named leaf (mem_namedLists (Or.inr hleaf) hv) v
      (Resolver.classify_eq_list_iff.mp hv).1

include hoptions

/-- An element predicate keeps to a rule where the list variables do that its conditions name. -/
theorem keeps_exprInvariant : g.ExprInvariant (fun scope ↦ ∃ array, scope = .element array)
    (g.ElementKeeps P) (Keeps P true) where
  scope array := ⟨array, rfl⟩
  negate _ he := keeps_negateExpr_iff.mpr he
  combine logic parts hparts :=
    (keeps_single_iff (by cases logic <;> decide)).mpr (keeps_arr_iff.mpr hparts)
  condition := by
    rintro _ c element e ⟨array, rfl⟩ hc helement he
    exact keeps_conditionExpr hP hoptions (hc.conditionKeeps hP array) helement he

/-- Where the element predicates of some list variables name just each other and look like no
reference, and the references to their arrays keep to a rule, writing any of them out does. The
induction is on the levels. -/
theorem variableKeeps_definitionAt {L : String → Prop}
    (hclosed : ∀ name, L name → ∀ b ∈ g.definitionNames name, L b)
    (hlists : ∀ name, L name → ∀ v, g.resolver.catalog.list? name = some v →
      v.condition.IsPlain ∧ (∀ inside, ListQuery.ArrayKeeps P .document inside v.condition) ∧
        ∀ c ∈ (Operand.list v.condition).elementConditions, c.IsDollarless ∧
          ∀ leaf ∈ g.formulaLeaves c, beginsWith "$" leaf = false)
    (levels : Nat) : ∀ name, L name → ∀ v, g.resolver.catalog.list? name = some v →
      { g with definition := g.definitionAt levels }.VariableKeeps P v := by
  induction levels with
  | zero =>
    intro name hn v hv
    obtain ⟨hplain, harray, -⟩ := hlists name hn v hv
    exact ⟨hplain, harray, fun e he ↦ by cases he⟩
  | succ levels ih =>
    intro name hn v hv
    obtain ⟨hplain, harray, hconditions⟩ := hlists name hn v hv
    refine ⟨hplain, harray, fun e he ↦ ?_⟩
    have hinvariant := keeps_exprInvariant (g := { g with definition := g.definitionAt levels }) hP
      hoptions
    refine hinvariant.element (.list v.condition) (fun c hc ↦ ?_) e he
    obtain ⟨hc', hleaves⟩ := hconditions c hc
    refine ⟨hc', hleaves, fun b hb w hw ↦ ih b (hclosed name hn b ?_) w hw⟩
    simp only [definitionNames, hv, Option.map_some, Option.getD_some]
    exact List.mem_flatMap.mpr ⟨c, hc, hb⟩

end Elements

/-- A condition outside of element predicates keeps to a rule, and so do all conditions of its
element predicate. -/
structure DocumentKeeps (g : Generator) (P : Place → String → Prop) (c : Condition) : Prop where
  own : g.ConditionKeeps P .document c
  elements : ∀ c' ∈ c.operand.elementConditions, g.ElementKeeps P c'

section Projections

variable (hP : IsPlaceRule P) (hoptions : beginsWith "$" g.regexOptions = false)

include hP hoptions

/-- The element predicate of a condition keeps to a rule where its conditions do. -/
theorem DocumentKeeps.operandExpr {c : Condition} (hc : g.DocumentKeeps P c) :
    ∀ e ∈ g.operandExpr .document c, e.Keeps P true := by
  intro e he
  simp only [Generator.operandExpr] at he
  split at he
  · exact (keeps_exprInvariant hP hoptions).element c.operand hc.elements e he
  · cases he

private theorem keeps_scopeInvariant :
    g.ScopeInvariant .document (g.DocumentKeeps P) (Keeps P false) where
  negate _ he := keeps_negateExpr_iff.mpr he
  combine logic parts hparts :=
    (keeps_single_iff (by cases logic <;> decide)).mpr (keeps_arr_iff.mpr hparts)
  condition c _ hc he := keeps_conditionExpr hP hoptions hc.own (hc.operandExpr hP hoptions) he

omit hoptions in
private theorem keeps_listField
    (hlists : ∀ v, g.resolver.catalog.list? name = some v → g.VariableKeeps P v)
    (he : g.listField? name = some e) : e.Keeps P false := by
  simp only [listField?, Option.bind_eq_bind, Option.bind_eq_some_iff] at he
  obtain ⟨v, hv, l, hl, he⟩ := he
  split at he
  · cases he
  · obtain ⟨q, hq, rfl⟩ := Option.map_eq_some_iff.mp he
    exact ((hlists v hv).variableQuery hq false).filteredExpr hP
  · obtain ⟨q, hq, rfl⟩ := Option.map_eq_some_iff.mp he
    have hop := op_of_variableQuery? hl hq
    exact ((hlists v hv).variableQuery hq false).aggregateExpr (by simp [hop])

/-- The members of a projection keep to a rule where the list variables and the negated named blocks
that they are computed from do, and have no names of operators. -/
theorem keeps_projection {always : List String} {usage : Usage}
    (hlists : ∀ name ∈ usage.listVariables, ∀ v, g.resolver.catalog.list? name = some v →
      IsTransparent name ∧ g.VariableKeeps P v)
    (hblocks : ∀ n ∈ usage.negatedBlocks, IsTransparent n.1 ∧
      ∀ c ∈ n.2.ownConditions, g.DocumentKeeps P c) :
    ∀ m ∈ (g.projection always usage).members, (single m.1 m.2).Keeps P false := by
  rintro ⟨key, v⟩ hm
  unfold Generator.projection at hm
  split at hm
  · cases hm
  rcases List.mem_append.mp (Members.mem_of_mem_ofList hm) with hm | hm
  · rcases List.mem_append.mp hm with hm | hm
    · obtain ⟨path, hpath, heq⟩ := List.mem_map.mp hm
      cases heq
      simp [Keeps, single, placed, placedMembers]
    · obtain ⟨name, hname, hfield⟩ := List.mem_filterMap.mp hm
      obtain ⟨e, he, heq⟩ := Option.map_eq_some_iff.mp hfield
      cases heq
      obtain ⟨w, hw, -⟩ := Option.bind_eq_some_iff.mp he
      exact (keeps_single_iff (hlists key hname w hw).1).mpr
        (keeps_listField hP (fun v hv ↦ (hlists key hname v hv).2) he)
  · obtain ⟨⟨name, e, b⟩, hmem, heq⟩ := List.mem_map.mp hm
    cases heq
    obtain ⟨n, hn, hfield⟩ := List.mem_filterMap.mp hmem
    obtain ⟨e, he, heq⟩ := Option.map_eq_some_iff.mp hfield
    cases heq
    obtain ⟨hname, hconditions⟩ := hblocks n hn
    exact (keeps_single_iff hname).mpr
      ((keeps_scopeInvariant hP hoptions).children n.2 hconditions he)

end Projections
end Generator

namespace Context

/-- No field, array, literal or option of regular expressions that a filter is compiled from looks
like a reference, and no leaf of a formula does. -/
structure IsDollarless (ctx : Context) (blocks : List Block) : Prop where
  options : beginsWith "$" ctx.settings.regexOptions = false
  conditions : ∀ c ∈ ctx.allConditions blocks, c.IsDollarless
  lists : ∀ v ∈ ctx.catalog.lists, v.condition.IsPlain
  formulas : ∀ v ∈ ctx.catalog.arithmetic, ∀ text ∈ v.formula?, (ctx.readFormula text).IsDollarless

namespace IsDollarless

variable {ctx : Context} {blocks : List Block} {P : Place → String → Prop} {L : String → Prop}

/-- No leaf of a formula that is written out looks like a reference. -/
theorem leaves (h : ctx.IsDollarless blocks) {c : Condition} :
    ∀ leaf ∈ ctx.generator.formulaLeaves c, beginsWith "$" leaf = false := by
  intro leaf hleaf
  obtain ⟨field, -, _, t, -, ht, hmem⟩ := Generator.mem_formulaLeaves_iff.mp hleaf
  obtain ⟨v, hv, text, htext, hmem⟩ := Resolver.exists_formula_of_mem_expandWithin ht hmem
  exact h.formulas v hv text htext leaf hmem

/-- Where some list variables name just each other, and the references to their arrays keep to a
rule, they do wherever they are written out. -/
theorem variableKeeps (h : ctx.IsDollarless blocks) (hP : IsPlaceRule P)
    (hclosed : ∀ name, L name → ∀ b ∈ ctx.generator.definitionNames name, L b)
    (harrays : ∀ name, L name → ∀ v, ctx.catalog.list? name = some v → ∀ inside,
      ListQuery.ArrayKeeps P .document inside v.condition) :
    ∀ name, L name → ∀ v, ctx.catalog.list? name = some v → ctx.generator.VariableKeeps P v := by
  refine Generator.variableKeeps_definitionAt (g := ctx.base) hP h.options hclosed ?_ _
  intro name hn v hv
  have hmem : v ∈ ctx.catalog.lists := Catalog.mem_of_list? hv
  exact ⟨h.lists v hmem, harrays name hn v hv, fun c hc ↦
    ⟨h.conditions c (mem_allConditions_of_list hmem hc), h.leaves⟩⟩

/-- A condition of an element predicate keeps to a rule where the list variables do that it
names. -/
theorem elementKeeps (h : ctx.IsDollarless blocks) {c : Condition}
    (hc : c ∈ ctx.allConditions blocks)
    (hnamed : ∀ name ∈ ctx.generator.namedLists c, ∀ v, ctx.catalog.list? name = some v →
      ctx.generator.VariableKeeps P v) : ctx.generator.ElementKeeps P c :=
  ⟨h.conditions c hc, h.leaves, hnamed⟩

/-- A condition outside of element predicates keeps to a rule where references to its field, its
array and the paths at the leaves of its formula do, and the list variables that it and its element
predicate name. -/
theorem documentKeeps (h : ctx.IsDollarless blocks) {c : Condition}
    (hconditions : ∀ c' ∈ c :: c.operand.elementConditions, c' ∈ ctx.allConditions blocks)
    (hnamed : ∀ c' ∈ c :: c.operand.elementConditions, ∀ name ∈ ctx.generator.namedLists c', ∀ v,
      ctx.catalog.list? name = some v → ctx.generator.VariableKeeps P v)
    (harray : ∀ d ∈ c.operand.list?, ListQuery.ArrayKeeps P .document false d)
    (hfield : ∀ field ∈ c.fieldName?, (∀ v l, ctx.resolver.classify field ≠ .list v l) →
      ctx.resolver.expand? ctx.readFormula field = none →
      P ⟨false, false⟩ (Scope.document.reference field))
    (hleaf : ∀ leaf ∈ ctx.generator.formulaLeaves c,
      (∀ v a, ctx.resolver.classify leaf = .list v (.aggregate a) →
        ctx.generator.variableQuery? v = none) →
      P ⟨false, false⟩ (Scope.document.reference leaf)) : ctx.generator.DocumentKeeps P c := by
  have hc := h.conditions c (hconditions c List.mem_cons_self)
  have hown : ∀ {name : String} {v : ListVariable} {l : ListOperator},
      name ∈ c.fieldName? ∨ name ∈ ctx.generator.formulaLeaves c →
      ctx.resolver.classify name = .list v l → ctx.generator.VariableKeeps P v :=
    fun hname hv ↦ hnamed c List.mem_cons_self _ (Generator.mem_namedLists hname hv) _
      (Resolver.classify_eq_list_iff.mp hv).1
  refine ⟨⟨hc.literal, fun d hd ↦ ⟨hc.list d hd, harray d hd⟩, hfield,
    fun field hf v l hv ↦ hown (Or.inl hf) hv, fun leaf hl ↦ ⟨?_, hleaf leaf hl⟩⟩, fun c' hc' ↦ ?_⟩
  · exact fun v a hv ↦ hown (Or.inr hl) hv
  · have hmem := List.mem_cons_of_mem c hc'
    exact h.elementKeeps (hconditions c' hmem) (hnamed c' hmem)

end IsDollarless
end Context
end FilterPipeline
