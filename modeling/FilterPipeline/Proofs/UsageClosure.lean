import FilterPipeline.Proofs.DependencyGraph
import FilterPipeline.Proofs.RearrangedFilters
import FilterPipeline.Proofs.UsedNames

/-!
# Usage as a least closure

The complete conditions of a filter outside of negated named blocks contribute paths, arithmetic
variables and list variables, their element predicates contribute list variables, and a list
variable contributes its array and what its own element predicate names. Main statement: what usage
analysis collects is the least that is closed under all that, whether or not definitions lead back
to themselves; a depth-first walk, too, ends with the same list variables; and neither the order of
blocks and children nor how often they stand there makes a difference. Conditions in the value of an
incomplete condition contribute nothing.
-/

namespace FilterPipeline

open Relation

namespace Resolver

/-- The field of a condition is a list variable, or leads to it through arithmetic variables. -/
def Names (r : Resolver) (c : Condition) (a : String) : Prop :=
  (∃ v op, r.classify a = .list v op) ∧
    ∃ field, c.fieldName? = some field ∧ ReflTransGen r.DependsOn field a

/-- A complete condition of an operand's element predicate names a list variable, the values of some
conditions being entered. -/
def NamesWithin (r : Resolver) (entered : Condition → Prop) (operand : Operand) (a : String) :
    Prop :=
  ∃ e, operand.HasElement entered e ∧ e.isComplete = true ∧ r.Names e a

/-- The element predicate of a list variable names a list variable. -/
def DefinitionNames (r : Resolver) (entered : Condition → Prop) (name a : String) : Prop :=
  ∃ v, r.catalog.list? name = some v ∧ r.NamesWithin entered v.condition.operand a

/-- What a condition contributes is there: the paths and the list variables that its field leads to,
itself if it is one; the field if it is an arithmetic variable; the array of its list condition; and
the list variables of its element predicate. -/
structure ContributesTo (r : Resolver) (entered : Condition → Prop) (c : Condition)
    (paths arithmetic lists : Set String) : Prop where
  path : ∀ {field a}, c.fieldName? = some field → ReflTransGen r.DependsOn field a →
    r.classify a = .base → a ∈ paths
  arithmetic : ∀ {field v}, c.fieldName? = some field → r.classify field = .arithmetic v →
    field ∈ arithmetic
  list : ∀ {a}, r.Names c a → a ∈ lists
  array : ∀ {d path}, c.operand.list? = some d → d.arrayPath? = some path → path ∈ paths
  element : ∀ {a}, r.NamesWithin entered c.operand a → a ∈ lists

/-- What the conditions of some blocks and the list variables contribute is all there. -/
structure IsUsageClosed (r : Resolver) (entered : Condition → Prop) (blocks : List Block)
    (paths arithmetic lists : Set String) : Prop where
  condition : ∀ b ∈ blocks, ∀ c, b.HasCondition c → c.isComplete = true →
    r.ContributesTo entered c paths arithmetic lists
  array : ∀ {name v path}, name ∈ lists → r.catalog.list? name = some v →
    v.condition.arrayPath? = some path → path ∈ paths
  element : ∀ {name a}, name ∈ lists → r.DefinitionNames entered name a → a ∈ lists

variable {r : Resolver} {c : Condition} {a : String}

/-- A path or list variable leads to itself only. -/
theorem reflTransGen_dependsOn_iff {field : String} (h : ∀ v, r.classify field ≠ .arithmetic v) :
    ReflTransGen r.DependsOn field a ↔ field = a := by
  constructor
  · intro hpath
    rcases hpath.cases_head with heq | ⟨_, ⟨v, _, hv, _⟩, _⟩
    · exact heq
    · exact absurd hv (h v)
  · rintro rfl
    exact .refl

/-- The list variables of a condition are those that it names. -/
theorem mem_conditionLists_iff : a ∈ r.conditionLists c ↔ r.Names c a := by
  unfold conditionLists Names
  cases hc : c.fieldName? with
  | none => simp
  | some field =>
    simp only [Option.some.injEq, exists_eq_left']
    cases hkind : r.classify field with
    | base =>
      rw [reflTransGen_dependsOn_iff (by simp [hkind])]
      refine iff_of_false List.not_mem_nil ?_
      rintro ⟨⟨v, op, hv⟩, rfl⟩
      rw [hkind] at hv
      cases hv
    | arithmetic v => exact mem_listVariables_iff
    | list v op =>
      rw [reflTransGen_dependsOn_iff (by simp [hkind]), List.mem_singleton]
      constructor
      · rintro rfl
        exact ⟨⟨v, op, hkind⟩, rfl⟩
      · exact fun h ↦ h.2.symm

/-- The paths of a condition are those that its field leads to. -/
theorem mem_conditionPaths_iff : a ∈ r.conditionPaths c ↔ r.classify a = .base ∧
    ∃ field, c.fieldName? = some field ∧ ReflTransGen r.DependsOn field a := by
  unfold conditionPaths
  cases hc : c.fieldName? with
  | none => simp
  | some field =>
    simp only [Option.some.injEq, exists_eq_left']
    cases hkind : r.classify field with
    | base =>
      rw [reflTransGen_dependsOn_iff (by simp [hkind]), List.mem_singleton]
      constructor
      · rintro rfl
        exact ⟨hkind, rfl⟩
      · exact fun h ↦ h.2.symm
    | arithmetic v => exact mem_baseFields_iff
    | list v op =>
      rw [reflTransGen_dependsOn_iff (by simp [hkind])]
      refine iff_of_false List.not_mem_nil ?_
      rintro ⟨ha, rfl⟩
      rw [hkind] at ha
      cases ha

/-- The arithmetic variable of a condition is its field. -/
theorem mem_conditionVariables_iff : a ∈ r.conditionVariables c ↔
    c.fieldName? = some a ∧ ∃ v, r.classify a = .arithmetic v := by
  unfold conditionVariables
  cases hc : c.fieldName? with
  | none => simp
  | some field =>
    simp only [Option.some.injEq]
    cases hkind : r.classify field with
    | base | list v op =>
      refine iff_of_false List.not_mem_nil ?_
      rintro ⟨rfl, v, hv⟩
      rw [hkind] at hv
      cases hv
    | arithmetic v =>
      rw [List.mem_singleton]
      constructor
      · rintro rfl
        exact ⟨rfl, v, hkind⟩
      · exact fun h ↦ h.1.symm

/-- The list variables of an element predicate are those that its complete conditions name. -/
theorem mem_elementLists_iff {operand : Operand} :
    a ∈ r.elementLists operand ↔ r.NamesWithin (·.isComplete = true) operand a := by
  simp only [elementLists, List.mem_flatMap, Operand.mem_elementConditions_iff,
    mem_conditionLists_iff, NamesWithin, and_assoc]

/-- The list variables of a definition are those that it names. -/
theorem mem_definitionLists_iff {name : String} :
    a ∈ r.definitionLists name ↔ r.DefinitionNames (·.isComplete = true) name a := by
  unfold definitionLists DefinitionNames
  cases r.catalog.list? name <;> simp [mem_elementLists_iff]

/-- The array of a definition is the one that it is about. -/
theorem mem_definitionArrays_iff {name : String} : a ∈ r.definitionArrays name ↔
    ∃ v, r.catalog.list? name = some v ∧ v.condition.arrayPath? = some a := by
  simp [definitionArrays, Option.bind_eq_some_iff]

end Resolver

namespace Usage

variable {r : Resolver} {blocks : List Block} {a : String}

/-- A condition is one of those that usage is collected from. -/
theorem mem_conditions_iff {c : Condition} : c ∈ blocks.flatMap Block.plainConditions ↔
    ∃ b ∈ blocks, b.HasCondition c ∧ c.isComplete = true := by
  simp only [List.mem_flatMap, Block.mem_plainConditions_iff]

/-- The list variables that conditions of some blocks, or their element predicates, name. -/
def IsSeed (r : Resolver) (blocks : List Block) (a : String) : Prop :=
  ∃ b ∈ blocks, ∃ c, b.HasCondition c ∧ c.isComplete = true ∧
    (r.Names c a ∨ r.NamesWithin (·.isComplete = true) c.operand a)

/-- The search for list variables begins with those. -/
theorem mem_seeds_iff : a ∈ (blocks.flatMap Block.plainConditions).flatMap
    (fun c ↦ r.conditionLists c ++ r.elementLists c.operand) ↔ IsSeed r blocks a := by
  rw [List.mem_flatMap]
  simp only [List.mem_append, Resolver.mem_conditionLists_iff, Resolver.mem_elementLists_iff]
  constructor
  · rintro ⟨c, hc, ha⟩
    obtain ⟨b, hb, hc, hcomplete⟩ := mem_conditions_iff.mp hc
    exact ⟨b, hb, c, hc, hcomplete, ha⟩
  · rintro ⟨b, hb, c, hc, hcomplete, ha⟩
    exact ⟨c, mem_conditions_iff.mpr ⟨b, hb, hc, hcomplete⟩, ha⟩

/-- A list variable refers to those that its definition names. -/
theorem refers_definitionLists :
    Refers r.definitionLists = r.DefinitionNames (·.isComplete = true) := by
  funext name a
  exact propext Resolver.mem_definitionLists_iff

/-- What is collected is closed. -/
theorem isUsageClosed_ofBlocks : r.IsUsageClosed (·.isComplete = true) blocks
    {a | a ∈ (ofBlocks r blocks).baseFields} {a | a ∈ (ofBlocks r blocks).arithmeticVariables}
    {a | a ∈ (ofBlocks r blocks).listVariables} where
  condition b hb c hc hcomplete := by
    have hmem : c ∈ blocks.flatMap Block.plainConditions :=
      mem_conditions_iff.mpr ⟨b, hb, hc, hcomplete⟩
    constructor
    · intro field a hfield hpath ha
      have hpaths := Resolver.mem_conditionPaths_iff.mpr ⟨ha, field, hfield, hpath⟩
      exact mem_baseFields_of_condition hmem (List.mem_append_left _ hpaths)
    · intro field v hfield hv
      have hvariables := Resolver.mem_conditionVariables_iff.mpr ⟨hfield, v, hv⟩
      exact mem_sortedNames.mpr (List.mem_flatMap.mpr ⟨c, hmem, hvariables⟩)
    · intro a ha
      have hlists := Resolver.mem_conditionLists_iff.mpr ha
      exact mem_listVariables_of_condition hmem (List.mem_append_left _ hlists)
    · intro d path hd hpath
      have harray : path ∈ (c.operand.list?.bind ListCondition.arrayPath?).toList := by
        simp [hd, hpath]
      exact mem_baseFields_of_condition hmem (List.mem_append_right _ harray)
    · intro a ha
      have hlists := Resolver.mem_elementLists_iff.mpr ha
      exact mem_listVariables_of_condition hmem (List.mem_append_right _ hlists)
  array hname hv hpath :=
    mem_baseFields_of_list hname (Resolver.mem_definitionArrays_iff.mpr ⟨_, hv, hpath⟩)
  element hname ha :=
    mem_listVariables_of_definition hname (Resolver.mem_definitionLists_iff.mpr ha)

section Least

variable {paths arithmetic lists : Set String}
  (h : r.IsUsageClosed (·.isComplete = true) blocks paths arithmetic lists)

include h

/-- The list variables collected are in every closed set. -/
theorem listVariables_subset : ∀ a ∈ (ofBlocks r blocks).listVariables, a ∈ lists := by
  intro a ha
  obtain ⟨s, hs, hpath⟩ := mem_listVariables_iff.mp ha
  rw [refers_definitionLists] at hpath
  clear ha
  induction hpath with
  | refl =>
    obtain ⟨b, hb, c, hc, hcomplete, hnames | hnames⟩ := mem_seeds_iff.mp hs
    · exact (h.condition b hb c hc hcomplete).list hnames
    · exact (h.condition b hb c hc hcomplete).element hnames
  | tail _ hstep ih => exact h.element ih hstep

/-- The arithmetic variables collected are in every closed set. -/
theorem arithmeticVariables_subset :
    ∀ a ∈ (ofBlocks r blocks).arithmeticVariables, a ∈ arithmetic := by
  intro a ha
  obtain ⟨c, hc, ha⟩ := List.mem_flatMap.mp (mem_sortedNames.mp ha)
  obtain ⟨b, hb, hc, hcomplete⟩ := mem_conditions_iff.mp hc
  obtain ⟨hfield, v, hv⟩ := Resolver.mem_conditionVariables_iff.mp ha
  exact (h.condition b hb c hc hcomplete).arithmetic hfield hv

/-- The paths collected are in every closed set. -/
theorem baseFields_subset : ∀ a ∈ (ofBlocks r blocks).baseFields, a ∈ paths := by
  intro a ha
  rcases List.mem_append.mp (mem_sortedNames.mp ha) with ha | ha
  · obtain ⟨c, hc, ha⟩ := List.mem_flatMap.mp ha
    obtain ⟨b, hb, hc, hcomplete⟩ := mem_conditions_iff.mp hc
    have hcondition := h.condition b hb c hc hcomplete
    rcases List.mem_append.mp ha with ha | ha
    · obtain ⟨ha, field, hfield, hpath⟩ := Resolver.mem_conditionPaths_iff.mp ha
      exact hcondition.path hfield hpath ha
    · obtain ⟨d, hd, hpath⟩ := Option.bind_eq_some_iff.mp (Option.mem_toList.mp ha)
      exact hcondition.array hd hpath
  · obtain ⟨name, hname, ha⟩ := List.mem_flatMap.mp ha
    obtain ⟨v, hv, hpath⟩ := Resolver.mem_definitionArrays_iff.mp ha
    exact h.array (listVariables_subset h name (mem_sortedNames.mpr hname)) hv hpath

end Least

private theorem contributesTo_of_within {c c' : Condition} {paths arithmetic lists : Set String}
    (hwithin : c.Within c')
    (h : r.ContributesTo (·.isComplete = true) c' paths arithmetic lists) :
    r.ContributesTo (·.isComplete = true) c paths arithmetic lists where
  path hfield := h.path (hwithin.fieldName?_eq ▸ hfield)
  arithmetic hfield := h.arithmetic (hwithin.fieldName?_eq ▸ hfield)
  list := by
    rintro a ⟨hlist, field, hfield, hpath⟩
    exact h.list ⟨hlist, field, hwithin.fieldName?_eq ▸ hfield, hpath⟩
  array := by
    intro d path hd hpath
    have harray : c.operand.list?.bind ListCondition.arrayPath? = some path :=
      Option.bind_eq_some_iff.mpr ⟨d, hd, hpath⟩
    rw [hwithin.arrayPath?_eq] at harray
    obtain ⟨d', hd', hpath'⟩ := Option.bind_eq_some_iff.mp harray
    exact h.array hd' hpath'
  element := by
    rintro a ⟨e, he, hcomplete, hlist, field, hfield, hpath⟩
    obtain ⟨e', he', hee'⟩ := he.within (fun hwithin h ↦ hwithin.isComplete_eq ▸ h) hwithin.operand
    exact h.element ⟨e', he', hee'.isComplete_eq ▸ hcomplete, hlist, field,
      hee'.fieldName?_eq ▸ hfield, hpath⟩

private theorem isUsageClosed_of_within {blocks' : List Block} {paths arithmetic lists : Set String}
    (hwithin : ∀ b ∈ blocks, ∃ b' ∈ blocks', b.Within b')
    (h : r.IsUsageClosed (·.isComplete = true) blocks' paths arithmetic lists) :
    r.IsUsageClosed (·.isComplete = true) blocks paths arithmetic lists where
  condition b hb c hc hcomplete := by
    obtain ⟨b', hb', hbb'⟩ := hwithin b hb
    obtain ⟨c', hc', hcc'⟩ := hc.within hbb'
    exact contributesTo_of_within hcc'
      (h.condition b' hb' c' hc' (hcc'.isComplete_eq ▸ hcomplete))
  array := h.array
  element := h.element

private theorem mem_listNames_of_definitionNames {name : String} {entered : Condition → Prop}
    (h : r.DefinitionNames entered name a) : name ∈ r.listNames := by
  obtain ⟨v, hv, -⟩ := h
  exact r.mem_listNames hv

/-- A depth-first walk over the list variables that conditions name ends, in whatever order these
and those of each definition are taken, and has met the list variables collected. -/
theorem walks_definitions {order : String → List String} {seeds : List String}
    (hseeds : ∀ a, a ∈ seeds ↔ IsSeed r blocks a)
    (horder : ∀ name a, a ∈ order name ↔ r.DefinitionNames (·.isComplete = true) name a) :
    (∃ met, Walks order [] seeds met) ∧
      ∀ met, Walks order [] seeds met → ∀ a, a ∈ met ↔ a ∈ (ofBlocks r blocks).listVariables := by
  have hrefers : Refers order = Refers r.definitionLists := by
    rw [refers_definitionLists]
    exact funext fun name ↦ funext fun a ↦ propext (horder name a)
  have href : ∀ name a, Refers order name a → name ∈ r.listNames := fun name a h ↦
    mem_listNames_of_definitionNames ((horder name a).mp h)
  constructor
  · exact exists_walks href [] seeds
  · intro met hwalk a
    simp only [hwalk.mem_iff, mem_listVariables_iff, mem_seeds_iff, hseeds, hrefers]

private theorem subset_of_within {blocks' : List Block}
    (hwithin : ∀ b ∈ blocks, ∃ b' ∈ blocks', b.Within b') :
    (∀ a ∈ (ofBlocks r blocks).baseFields, a ∈ (ofBlocks r blocks').baseFields) ∧
    (∀ a ∈ (ofBlocks r blocks).arithmeticVariables, a ∈ (ofBlocks r blocks').arithmeticVariables) ∧
    ∀ a ∈ (ofBlocks r blocks).listVariables, a ∈ (ofBlocks r blocks').listVariables := by
  have h := isUsageClosed_of_within hwithin (isUsageClosed_ofBlocks (r := r))
  exact ⟨baseFields_subset h, arithmeticVariables_subset h, listVariables_subset h⟩

/-- Blocks that are within each other use the same. -/
theorem ofBlocks_congr {blocks' : List Block}
    (hwithin : ∀ b ∈ blocks, ∃ b' ∈ blocks', b.Within b')
    (hwithin' : ∀ b' ∈ blocks', ∃ b ∈ blocks, b'.Within b) :
    (ofBlocks r blocks').baseFields = (ofBlocks r blocks).baseFields ∧
    (ofBlocks r blocks').arithmeticVariables = (ofBlocks r blocks).arithmeticVariables ∧
    (ofBlocks r blocks').listVariables = (ofBlocks r blocks).listVariables := by
  obtain ⟨hbase, harithmetic, hlist⟩ := subset_of_within (r := r) hwithin
  obtain ⟨hbase', harithmetic', hlist'⟩ := subset_of_within (r := r) hwithin'
  simp only [ofBlocks, mem_sortedNames] at hbase harithmetic hlist hbase' harithmetic' hlist' ⊢
  exact ⟨sortedNames_congr fun a ↦ ⟨hbase' a, hbase a⟩,
    sortedNames_congr fun a ↦ ⟨harithmetic' a, harithmetic a⟩,
    sortedNames_congr fun a ↦ ⟨hlist' a, hlist a⟩⟩

/-- What usage analysis collects is closed, is in everything else that is closed, and holds each
name once, in order. Depth-first walks over definitions end with the same list variables, and blocks
that are within each other use the same. -/
theorem ofBlocks_least_closure (r : Resolver) (blocks : List Block) :
    r.IsUsageClosed (·.isComplete = true) blocks {a | a ∈ (ofBlocks r blocks).baseFields}
      {a | a ∈ (ofBlocks r blocks).arithmeticVariables}
      {a | a ∈ (ofBlocks r blocks).listVariables} ∧
    (∀ paths arithmetic lists : Set String,
      r.IsUsageClosed (·.isComplete = true) blocks paths arithmetic lists →
      (∀ a ∈ (ofBlocks r blocks).baseFields, a ∈ paths) ∧
      (∀ a ∈ (ofBlocks r blocks).arithmeticVariables, a ∈ arithmetic) ∧
      ∀ a ∈ (ofBlocks r blocks).listVariables, a ∈ lists) ∧
    ((ofBlocks r blocks).baseFields.Pairwise (· < ·) ∧
      (ofBlocks r blocks).arithmeticVariables.Pairwise (· < ·) ∧
      (ofBlocks r blocks).listVariables.Pairwise (· < ·)) ∧
    (∀ (seeds : List String) (order : String → List String),
      (∀ a, a ∈ seeds ↔ IsSeed r blocks a) →
      (∀ name a, a ∈ order name ↔ r.DefinitionNames (·.isComplete = true) name a) →
      (∃ met, Walks order [] seeds met) ∧
      ∀ met, Walks order [] seeds met → ∀ a, a ∈ met ↔ a ∈ (ofBlocks r blocks).listVariables) ∧
    ∀ blocks' : List Block, (∀ b ∈ blocks, ∃ b' ∈ blocks', b.Within b') →
      (∀ b' ∈ blocks', ∃ b ∈ blocks, b'.Within b) →
      (ofBlocks r blocks').baseFields = (ofBlocks r blocks).baseFields ∧
      (ofBlocks r blocks').arithmeticVariables = (ofBlocks r blocks).arithmeticVariables ∧
      (ofBlocks r blocks').listVariables = (ofBlocks r blocks).listVariables :=
  ⟨isUsageClosed_ofBlocks,
    fun _ _ _ h ↦ ⟨baseFields_subset h, arithmeticVariables_subset h, listVariables_subset h⟩,
    ⟨pairwise_sortedNames, pairwise_sortedNames, pairwise_sortedNames⟩,
    fun _ _ hseeds horder ↦ walks_definitions hseeds horder,
    fun _ hwithin hwithin' ↦ ofBlocks_congr hwithin hwithin'⟩

/-- A node that asks whether a field is there. -/
def presence (field : String) : Node :=
  .condition ⟨"", some field, some .present, .literal .null, none⟩

/-- A node that asks something of the elements of an array, if the operator is one for that. -/
def elementTest (field : String) (op : Option Operator) (children : List Node) : Node :=
  .condition ⟨"", some field, op, .nested ⟨"", .and, children, none, true⟩, none⟩

/-- Two list variables whose definitions name each other, and a variable that names one of them. -/
def mirrored : Resolver where
  schema := .empty
  catalog :=
    let elements (name : String) : ListCondition := ⟨"prv", some (.list .filter), none,
      .nested ⟨"", .and, [presence name], none, true⟩, none, none, none⟩
    { arithmetic := [⟨"gap", "gap = early - jd"⟩]
      lists := [⟨"early", elements "late"⟩, ⟨"late", elements "early"⟩] }

/-- A block with a block and a condition in it. -/
def nestedFilter (children : List Node) : Block :=
  ⟨"", .and, [.block ⟨"", .or, children, none, true⟩, presence "ra"], none, true⟩

/-- Though the definitions lead back to each other, a walk over them ends, and both are used; and it
makes no difference in what order and how often nodes stand in the filter. -/
theorem mirrored_least_closure :
    mirrored.IsUsageClosed (·.isComplete = true) [nestedFilter [presence "gap", presence "fid"]]
      .univ .univ {a | a ∈ mirrored.listNames} ∧
    (∀ a ∈ (ofBlocks mirrored [nestedFilter [presence "gap", presence "fid"]]).listVariables,
      a ∈ mirrored.listNames) ∧
    (∃ met, Walks mirrored.definitionLists [] ["early"] met ∧ "late" ∈ met) ∧
    "late" ∈ (ofBlocks mirrored [nestedFilter [presence "gap", presence "fid"]]).listVariables ∧
    (ofBlocks mirrored [nestedFilter [presence "fid", presence "gap", presence "fid"],
      nestedFilter [presence "gap", presence "fid"]]).listVariables =
        (ofBlocks mirrored [nestedFilter [presence "gap", presence "fid"]]).listVariables := by
  have hnames : ∀ {c a}, mirrored.Names c a → a ∈ mirrored.listNames := by
    rintro c a ⟨⟨v, op, hv⟩, -⟩
    exact mirrored.mem_listNames (Resolver.classify_eq_list_iff.mp hv).1
  have hclosed : mirrored.IsUsageClosed (·.isComplete = true)
      [nestedFilter [presence "gap", presence "fid"]] .univ .univ {a | a ∈ mirrored.listNames} := by
    refine ⟨fun _ _ _ _ _ ↦ ⟨fun _ _ _ ↦ trivial, fun _ _ ↦ trivial, hnames, fun _ _ ↦ trivial, ?_⟩,
      fun _ _ _ ↦ trivial, ?_⟩
    · rintro a ⟨e, -, -, he⟩
      exact hnames he
    · rintro name a - ⟨v, -, e, -, -, he⟩
      exact hnames he
  obtain ⟨-, hleast, -, hwalks, hrearranged⟩ :=
    ofBlocks_least_closure mirrored [nestedFilter [presence "gap", presence "fid"]]
  have hseeds : ∀ a, a ∈ ["early"] ↔
      IsSeed mirrored [nestedFilter [presence "gap", presence "fid"]] a := by
    intro a
    rw [← mem_seeds_iff]
    exact iff_of_eq (congrArg (a ∈ ·) (by decide +kernel))
  obtain ⟨⟨met, hmet⟩, hiff⟩ := hwalks ["early"] mirrored.definitionLists hseeds
    fun _ _ ↦ Resolver.mem_definitionLists_iff
  -- the inner blocks have the same children, each of them once or twice
  have hwithin : ∀ {children children' : List Node}, children ⊆ children' →
      (nestedFilter children).Within (nestedFilter children') := fun h ↦
    .mk (.cons List.mem_cons_self (.block (.mk (Node.allWithin_of_subset h)))
      (Node.allWithin_of_subset (List.subset_cons_self _ _)))
  have hlate : "late" ∈ mirrored.definitionLists "early" := by decide +kernel
  have hmem : "late" ∈ met :=
    hmet.closed (hmet.names_subset (List.mem_singleton_self _)) List.not_mem_nil hlate
  refine ⟨hclosed, (hleast _ _ _ hclosed).2.2, ⟨met, hmet, hmem⟩, (hiff met hmet "late").mp hmem,
    (hrearranged _ ?_ ?_).2.2⟩
  · simpa using .inr (Block.Within.refl _)
  · simpa using ⟨hwithin (by simp), Block.Within.refl _⟩

/-- A list variable in the value of a condition without operator, in the value of a complete one. -/
def sheltered : Block :=
  ⟨"", .and, [elementTest "prv" (some (.list (.quantifier .any)))
    [elementTest "jd" none [presence "low"]]], none, true⟩

/-- What is closed when the values of incomplete conditions are entered, too, has a list variable
that usage analysis does not collect. -/
theorem sheltered_not_collected :
    (∀ paths arithmetic lists : Set String,
      Resolver.tangled.IsUsageClosed (fun _ ↦ True) [sheltered] paths arithmetic lists →
        "low" ∈ lists) ∧
    "low" ∉ (ofBlocks Resolver.tangled [sheltered]).listVariables := by
  constructor
  · intro paths arithmetic lists h
    have hcondition := h.condition sheltered (List.mem_singleton_self _) _
      (.here rfl (List.mem_singleton_self _)) rfl
    have hlow : (⟨"", some "low", some .present, .literal .null, none⟩ : Condition).fieldName? =
        some "low" := by decide +kernel
    apply hcondition.element
    exact ⟨_, ⟨_, .nested, .value (List.mem_singleton_self _) trivial .nested
      (.here (List.mem_singleton_self _))⟩, by decide +kernel, ⟨_, _, by rfl⟩, "low", hlow, .refl⟩
  · decide +kernel

end Usage
end FilterPipeline
