import FilterPipeline.Compile.Circularity
import FilterPipeline.Compile.QueryForm
import Mathlib.Data.List.Basic

/-!
# What compiling reads of the definitions

A generator looks up how list variables are written out. Main statements: two generators that differ
only in that, and agree on the list variables that a filter enters, compile it to the same queries,
expressions and projection.
-/

namespace FilterPipeline

/-- Two ways to write list variables out agree on those with some names. -/
def AgreeOn (c : Catalog) (names : List String) (d d' : ListVariable → Option Json) : Prop :=
  ∀ name ∈ names, ∀ v, c.list? name = some v → d v = d' v

namespace AgreeOn

variable {c : Catalog} {xs ys : List String} {d d' : ListVariable → Option Json}

/-- Agreement on more names is agreement on fewer. -/
theorem mono (h : AgreeOn c ys d d') (hs : xs ⊆ ys) : AgreeOn c xs d d' :=
  fun name hn ↦ h name (hs hn)

/-- Agreement on names of two kinds is agreement on the first kind. -/
theorem left (h : AgreeOn c (xs ++ ys) d d') : AgreeOn c xs d d' :=
  h.mono (List.subset_append_left xs ys)

/-- Agreement on names of two kinds is agreement on the second kind. -/
theorem right (h : AgreeOn c (xs ++ ys) d d') : AgreeOn c ys d d' :=
  h.mono (List.subset_append_right xs ys)

end AgreeOn

namespace Generator

variable (g : Generator) {d d' : ListVariable → Option Json}

private theorem compareExpr_congr (d d' : ListVariable → Option Json) (lhs : Json)
    (op : Operator) (v : Json) (type : Option FieldType) :
    { g with definition := d }.compareExpr lhs op v type =
      { g with definition := d' }.compareExpr lhs op v type := by
  cases op <;> rfl

private theorem arrayExpr_congr (d d' : ListVariable → Option Json) (array : Json)
    (op : Operator) (v : Json) :
    { g with definition := d }.arrayExpr array op v =
      { g with definition := d' }.arrayExpr array op v := by
  cases op <;> rfl

private theorem variableQuery?_congr {v : ListVariable} (h : v.isEntered = true → d v = d' v) :
    { g with definition := d }.variableQuery? v =
      { g with definition := d' }.variableQuery? v := by
  simp only [variableQuery?]
  split
  · next he => rw [h he]
  · rfl

-- Nothing is entered for an aggregate, so that formulas read no definition.
private theorem formulaExpr_congr (d d' : ListVariable → Option Json) (scope : Scope)
    (t : Formula) :
    { g with definition := d }.formulaExpr scope t =
      { g with definition := d' }.formulaExpr scope t := by
  simp only [formulaExpr]
  refine congrArg (t.renderWith · scope.fields) (funext fun leaf ↦ ?_)
  cases hc : g.resolver.classify leaf with
  | base => rfl
  | arithmetic v => rfl
  | list v op =>
    cases op with
    | quantifier q => rfl
    | filter => rfl
    | aggregate a =>
      have ho := (Resolver.classify_eq_list_iff.mp hc).2
      have hn : v.isEntered = true → d v = d' v := by
        simp [ListVariable.isEntered, ho, ListOperator.entersElements]
      simp only [variableQuery?_congr g hn]

private theorem baseExpr_congr (d d' : ListVariable → Option Json) (scope : Scope) (field : String)
    (op : Operator) (operand : Operand) (element : Option Json) :
    { g with definition := d }.baseExpr scope field op operand element =
      { g with definition := d' }.baseExpr scope field op operand element := by
  unfold baseExpr
  simp only [compareExpr_congr g d d']

private theorem listReferenceExpr_congr (c : Condition) (op : Operator) {v : ListVariable}
    (h : v.isEntered = true → d v = d' v) :
    { g with definition := d }.listReferenceExpr c op v =
      { g with definition := d' }.listReferenceExpr c op v := by
  simp only [listReferenceExpr, variableQuery?_congr g h,
    compareExpr_congr g d d', arrayExpr_congr g d d']

private theorem conditionExpr_congr (scope : Scope) (c : Condition) (element : Option Json)
    {entered : List String}
    (h : AgreeOn g.resolver.catalog (g.resolver.conditionEntries c entered) d d') :
    { g with definition := d }.conditionExpr scope c element =
      { g with definition := d' }.conditionExpr scope c element := by
  simp only [conditionExpr, Option.bind_eq_bind]
  cases hf : c.fieldName? with
  | none => simp only [Option.bind_none]
  | some field =>
    cases ho : c.operator with
    | none => simp only [Option.bind_none, Option.bind_some]
    | some op =>
      simp only [Option.bind_some]
      cases hc : g.resolver.classify field with
      | base => simp only [baseExpr_congr g d d']
      | arithmetic v =>
        simp only [formulaExpr_congr g d d',
          compareExpr_congr g d d', baseExpr_congr g d d']
      | list v l =>
        apply listReferenceExpr_congr
        intro he
        exact h v.key (Resolver.mem_conditionEntries hf ho hc he) v
          (Resolver.list?_key_of_classify hc)

mutual

/-- A block is compiled alike where its entries are written out alike. -/
theorem blockExpr_congr (scope : Scope) : (b : Block) →
    AgreeOn g.resolver.catalog (g.resolver.blockEntries b) d d' →
    { g with definition := d }.blockExpr scope b = { g with definition := d' }.blockExpr scope b
  | ⟨_, _, children, _, _⟩, h => by
    simp only [blockExpr]
    rw [nodeExprs_congr scope children h]

/-- Nodes are compiled alike where their entries are written out alike. -/
theorem nodeExprs_congr (scope : Scope) : (nodes : List Node) →
    AgreeOn g.resolver.catalog (g.resolver.nodeEntries nodes) d d' →
    { g with definition := d }.nodeExprs scope nodes =
      { g with definition := d' }.nodeExprs scope nodes
  | [], _ => rfl
  | .block b :: rest, h => by
    rw [nodeExprs_cons, nodeExprs_cons]
    simp only [nodeExpr]
    rw [blockExpr_congr scope b h.left, nodeExprs_congr scope rest h.right]
  | .condition ⟨id, field, op, operand, switch⟩ :: rest, h => by
    rw [nodeExprs_cons, nodeExprs_cons, nodeExpr_condition, nodeExpr_condition,
      conditionExpr_congr g scope _ _ h.left,
      operandExpr_congr scope operand ⟨id, field, op, operand, switch⟩ rfl h.left,
      nodeExprs_congr scope rest h.right]

/-- The operand of a condition is compiled alike where the entries of the condition are written out
alike. -/
theorem operandExpr_congr (scope : Scope) : (operand : Operand) → (c : Condition) →
    c.operand = operand → AgreeOn g.resolver.catalog
      (g.resolver.conditionEntries c (g.resolver.elementEntries operand)) d d' →
    { g with definition := d }.operandExpr scope c = { g with definition := d' }.operandExpr scope c
  | operand, c, hc, h => by
    simp only [operandExpr]
    split
    · next he =>
      rw [Resolver.conditionEntries_of_entersOperand he] at h
      rw [hc]
      exact elementExpr_congr scope _ operand h
    · rfl

/-- An element predicate is compiled alike where its entries are written out alike. -/
theorem elementExpr_congr (scope : Scope) (field : String) : (operand : Operand) →
    AgreeOn g.resolver.catalog (g.resolver.elementEntries operand) d d' →
    { g with definition := d }.elementExpr scope field operand =
      { g with definition := d' }.elementExpr scope field operand
  | .literal _, _ => rfl
  | .nested b, h => by
    simp only [elementExpr]
    exact blockExpr_congr _ b h
  | .list ⟨_, _, _, operand, _, _, _⟩, h => by
    cases operand with
    | nested b =>
      simp only [elementExpr]
      exact blockExpr_congr _ b h
    | literal v => simp only [elementExpr]
    | list d => simp only [elementExpr]

end

private theorem childrenExpr_congr (scope : Scope) (b : Block)
    (h : AgreeOn g.resolver.catalog (g.resolver.blockEntries b) d d') :
    { g with definition := d }.childrenExpr scope b =
      { g with definition := d' }.childrenExpr scope b := by
  obtain ⟨_, _, children, _, _⟩ := b
  simp only [childrenExpr]
  rw [nodeExprs_congr g scope children h]

private theorem listField?_congr {name : String} {lists : List String} (hn : name ∈ lists)
    (h : AgreeOn g.resolver.catalog (g.resolver.projectedEntries lists) d d') :
    { g with definition := d }.listField? name = { g with definition := d' }.listField? name := by
  simp only [listField?, Option.bind_eq_bind]
  cases hv : g.resolver.catalog.list? name with
  | none => simp only [Option.bind_none]
  | some v =>
    simp only [Option.bind_some]
    cases ho : v.operator? with
    | none => simp only [Option.bind_none]
    | some op =>
      cases op with
      | quantifier q => simp only [Option.bind_some]
      | aggregate a =>
        have hne : v.isEntered = true → d v = d' v := by
          simp [ListVariable.isEntered, ho, ListOperator.entersElements]
        simp only [Option.bind_some, variableQuery?_congr g hne]
      | filter =>
        have hne : v.isEntered = true → d v = d' v := by
          intro he
          apply h name _ v hv
          simp [Resolver.projectedEntries, Resolver.classify_eq_list_iff.mpr ⟨hv, ho⟩, hn, he]
        simp only [Option.bind_some, variableQuery?_congr g hne]

private theorem computedBlocks_congr {blocks : List (String × Block)}
    (h : ∀ p ∈ blocks, { g with definition := d }.childrenExpr .document p.2 =
      { g with definition := d' }.childrenExpr .document p.2) :
    (blocks.filterMap fun (name, b) ↦
        ({ g with definition := d }.childrenExpr .document b).map fun e ↦ (name, e, b)) =
      blocks.filterMap fun (name, b) ↦
        ({ g with definition := d' }.childrenExpr .document b).map fun e ↦ (name, e, b) := by
  apply List.filterMap_congr
  intro p hp
  simp only [h p hp]

/-- A projection is computed alike where what it enters is written out alike. -/
theorem projection_congr (always : List String) (usage : Usage)
    (hl : AgreeOn g.resolver.catalog (g.resolver.projectedEntries usage.listVariables) d d')
    (hb : ∀ p ∈ usage.negatedBlocks,
      AgreeOn g.resolver.catalog (g.resolver.blockEntries p.2) d d') :
    { g with definition := d }.projection always usage =
      { g with definition := d' }.projection always usage := by
  have hlists : (usage.listVariables.filterMap fun name ↦
        ({ g with definition := d }.listField? name).map (name, ·)) =
      usage.listVariables.filterMap fun name ↦
        ({ g with definition := d' }.listField? name).map (name, ·) := by
    apply List.filterMap_congr
    intro name hn
    rw [listField?_congr g hn hl]
  have hblocks := computedBlocks_congr g fun p hp ↦ childrenExpr_congr g .document p.2 (hb p hp)
  simp only [projection, hlists, hblocks]

private theorem compareQuery_congr (d d' : ListVariable → Option Json) (field : String)
    (op : Operator) (v : Json) (type : Option FieldType) :
    { g with definition := d }.compareQuery field op v type =
      { g with definition := d' }.compareQuery field op v type := by
  cases op <;> rfl

private theorem baseQuery_congr (d d' : ListVariable → Option Json) (field : String) (op : Operator)
    (operand : Operand) (element : Option Json) :
    { g with definition := d }.baseQuery field op operand element =
      { g with definition := d' }.baseQuery field op operand element := by
  unfold baseQuery
  simp only [compareQuery_congr g d d']

private theorem materializedQuery_congr (d d' : ListVariable → Option Json) (c : Condition)
    (op : Operator) (name : String) (l : ListOperator) :
    { g with definition := d }.materializedQuery c op name l =
      { g with definition := d' }.materializedQuery c op name l := by
  unfold materializedQuery
  simp only [compareQuery_congr g d d']

private theorem conditionQuery_congr (p : Projection) (c : Condition) (element : Option Json)
    {entered : List String}
    (h : AgreeOn g.resolver.catalog (g.resolver.conditionEntries c entered) d d') :
    { g with definition := d }.conditionQuery p c element =
      { g with definition := d' }.conditionQuery p c element := by
  simp only [conditionQuery, Option.bind_eq_bind]
  cases hf : c.fieldName? with
  | none => simp only [Option.bind_none]
  | some field =>
    cases ho : c.operator with
    | none => simp only [Option.bind_none, Option.bind_some]
    | some op =>
      simp only [Option.bind_some]
      cases hc : g.resolver.classify field with
      | base => simp only [baseQuery_congr g d d']
      | arithmetic v =>
        simp only [compareExpr_congr g d d',
          baseQuery_congr g d d']
      | list v l =>
        have hv : v.isEntered = true → d v = d' v := fun he ↦
          h v.key (Resolver.mem_conditionEntries hf ho hc he) v (Resolver.list?_key_of_classify hc)
        simp only [materializedQuery_congr g d d',
          listReferenceExpr_congr g c op hv]

mutual

/-- A block of the match is compiled alike where its entries are written out alike. -/
theorem blockQuery_congr (p : Projection) : (b : Block) →
    AgreeOn g.resolver.catalog (g.resolver.blockEntries b) d d' →
    { g with definition := d }.blockQuery p b = { g with definition := d' }.blockQuery p b
  | ⟨_, _, children, _, _⟩, h => by
    simp only [blockQuery]
    rw [nodeQueries_congr p children h]

/-- Nodes of the match are compiled alike where their entries are written out alike. -/
theorem nodeQueries_congr (p : Projection) : (nodes : List Node) →
    AgreeOn g.resolver.catalog (g.resolver.nodeEntries nodes) d d' →
    { g with definition := d }.nodeQueries p nodes =
      { g with definition := d' }.nodeQueries p nodes
  | [], _ => rfl
  | .block b :: rest, h => by
    rw [nodeQueries_block, nodeQueries_block, blockQuery_congr p b h.left,
      nodeQueries_congr p rest h.right]
  | .condition ⟨id, field, op, operand, switch⟩ :: rest, h => by
    rw [nodeQueries_condition, nodeQueries_condition, conditionQuery_congr g p _ _ h.left,
      operandExpr_congr g .document operand ⟨id, field, op, operand, switch⟩ rfl h.left,
      nodeQueries_congr p rest h.right]

end

end Generator
end FilterPipeline
