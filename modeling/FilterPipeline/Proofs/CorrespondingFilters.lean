import FilterPipeline.Compile.Entering
import FilterPipeline.Compile.Usage
import Mathlib.Data.List.Forall2

/-!
# Filters that differ in their literals

Two filters correspond when they are the same tree and the literals in equal places stand in a
relation. Main statements: what a filter uses, its negated blocks aside, is the same for
corresponding ones; and equal blocks correspond.
-/

namespace FilterPipeline

/-- Whether an operator takes a text for its operand as it is. Comparisons, memberships and list
operators do; the others take patterns, truth values, ranges and numbers. -/
def Operator.takesText : Operator → Bool
  | .compare _ | .oneOf | .noneOf | .list _ => true
  | _ => false

variable (L : Bool → Json → Json → Prop)

mutual

/-- Two blocks are the same but for their literals, which stand in a relation. The relation is told
whether a literal is the operand of an operator that takes texts. -/
inductive Block.Rel : Block → Block → Prop
  | mk {id : String} {logic : Logic} {children children' : List Node} {name : Option String}
      {mustHold : Bool} : List.Forall₂ Node.Rel children children' →
      Block.Rel ⟨id, logic, children, name, mustHold⟩ ⟨id, logic, children', name, mustHold⟩

/-- Two nodes are the same but for their literals. -/
inductive Node.Rel : Node → Node → Prop
  | block {b b' : Block} : Block.Rel b b' → Node.Rel (.block b) (.block b')
  | condition {c c' : Condition} : Condition.Rel c c' → Node.Rel (.condition c) (.condition c')

/-- Two conditions are the same but for their literals. -/
inductive Condition.Rel : Condition → Condition → Prop
  | mk {id : String} {field : Option String} {op : Option Operator} {operand operand' : Operand}
      {switch : Option Bool} : Operand.Rel (op.any Operator.takesText) operand operand' →
      Condition.Rel ⟨id, field, op, operand, switch⟩ ⟨id, field, op, operand', switch⟩

/-- Two operands are the same but for their literals. -/
inductive Operand.Rel : Bool → Operand → Operand → Prop
  | literal {free : Bool} {v v' : Json} : L free v v' → Operand.Rel free (.literal v) (.literal v')
  | nested {free : Bool} {b b' : Block} : Block.Rel b b' →
      Operand.Rel free (.nested b) (.nested b')
  | list {free : Bool} {d d' : ListCondition} : ListCondition.Rel d d' →
      Operand.Rel free (.list d) (.list d')

/-- Two list conditions are the same but for their literals, texts for list operators. -/
inductive ListCondition.Rel : ListCondition → ListCondition → Prop
  | mk {field : String} {op : Option Operator} {subField : Option String}
      {operand operand' : Operand} {comparison : Option Operator} {value value' : Option Json}
      {switch : Option Bool} : Operand.Rel true operand operand' →
      Option.Rel (L true) value value' →
      ListCondition.Rel ⟨field, op, subField, operand, comparison, value, switch⟩
        ⟨field, op, subField, operand', comparison, value', switch⟩

end

variable {L}

namespace ListCondition.Rel

variable {d d' : ListCondition} (h : d.Rel L d')

include h

private theorem arrayPath?_eq : d.arrayPath? = d'.arrayPath? := by
  cases h
  rfl

private theorem listOperator?_eq : d.listOperator? = d'.listOperator? := by
  cases h
  rfl

end ListCondition.Rel

/-- Corresponding operands name the same array. -/
theorem Operand.Rel.arrayPath?_eq {free : Bool} {operand operand' : Operand}
    (h : operand.Rel L free operand') : operand.list?.bind ListCondition.arrayPath? =
      operand'.list?.bind ListCondition.arrayPath? := by
  cases h with
  | literal | nested => rfl
  | list h => simpa only [Operand.list?, Option.bind_some] using h.arrayPath?_eq

namespace Condition.Rel

variable {c c' : Condition} (h : c.Rel L c')

include h

/-- Corresponding conditions are on the same field. -/
theorem fieldName?_eq : c.fieldName? = c'.fieldName? := by
  cases h
  rfl

/-- Corresponding conditions have the same operator. -/
theorem operator_eq : c.operator = c'.operator := by
  cases h
  rfl

/-- Of corresponding conditions both are negated or none is. -/
theorem isNegated_eq : c.isNegated = c'.isNegated := by
  cases h
  rfl

private theorem isComplete_eq : c.isComplete = c'.isComplete := by
  cases h
  rfl

/-- The operands of corresponding conditions correspond. -/
theorem operand : c.operand.Rel L (c.operator.any Operator.takesText) c'.operand := by
  cases h
  assumption

end Condition.Rel

namespace Block.Rel

variable {b b' : Block} (h : b.Rel L b')

include h

/-- Of corresponding blocks both are negated named ones or none is. -/
theorem isNegatedNamed_eq : b.isNegatedNamed = b'.isNegatedNamed := by
  cases h
  rfl

end Block.Rel

mutual

/-- Corresponding blocks have corresponding conditions outside negated blocks. -/
theorem Block.forall₂_plainConditions : (b : Block) → ∀ b', b.Rel L b' →
    List.Forall₂ (Condition.Rel L) b.plainConditions b'.plainConditions
  | ⟨_, _, children, _, _⟩, _, hb@(.mk h) => by
    rw [Block.plainConditions, Block.plainConditions, ← hb.isNegatedNamed_eq]
    split
    · exact .nil
    · exact Node.forall₂_plainConditions children _ h

/-- Corresponding nodes have corresponding conditions outside negated blocks. -/
theorem Node.forall₂_plainConditions : (nodes : List Node) →
    ∀ nodes', List.Forall₂ (Node.Rel L) nodes nodes' →
    List.Forall₂ (Condition.Rel L) (Node.plainConditions nodes) (Node.plainConditions nodes')
  | [], _, .nil => .nil
  | .block b :: rest, _, .cons (.block h) hrest =>
    List.rel_append (Block.forall₂_plainConditions b _ h)
      (Node.forall₂_plainConditions rest _ hrest)
  | .condition c :: rest, _, .cons (.condition h) hrest => by
    have ih := Node.forall₂_plainConditions rest _ hrest
    rw [Node.plainConditions, Node.plainConditions, ← h.isComplete_eq]
    split
    · exact .cons h ih
    · exact ih

end

mutual

/-- Corresponding blocks have corresponding negated blocks. -/
theorem Block.forall₂_negatedBlocks : (b : Block) → ∀ b', b.Rel L b' →
    List.Forall₂ (Block.Rel L) b.negatedBlocks b'.negatedBlocks
  | ⟨_, _, children, _, _⟩, _, hb@(.mk h) => by
    rw [Block.negatedBlocks, Block.negatedBlocks, ← hb.isNegatedNamed_eq]
    split
    · exact .cons hb .nil
    · exact Node.forall₂_negatedBlocks children _ h

/-- Corresponding nodes have corresponding negated blocks. -/
theorem Node.forall₂_negatedBlocks : (nodes : List Node) →
    ∀ nodes', List.Forall₂ (Node.Rel L) nodes nodes' →
    List.Forall₂ (Block.Rel L) (Node.negatedBlocks nodes) (Node.negatedBlocks nodes')
  | [], _, .nil => .nil
  | .block b :: rest, _, .cons (.block h) hrest =>
    List.rel_append (Block.forall₂_negatedBlocks b _ h) (Node.forall₂_negatedBlocks rest _ hrest)
  | .condition _ :: rest, .condition _ :: rest', .cons (.condition _) hrest =>
    Node.forall₂_negatedBlocks rest rest' hrest

end

mutual

private theorem Operand.forall₂_elementConditions {free : Bool} : (operand : Operand) →
    ∀ operand', operand.Rel L free operand' →
    List.Forall₂ (Condition.Rel L) operand.elementConditions operand'.elementConditions
  | .literal _, _, .literal _ => .nil
  | .nested b, _, .nested h => Block.forall₂_elementConditions b _ h
  | .list ⟨_, _, _, operand, _, _, _⟩, .list ⟨_, _, _, operand', _, _, _⟩, .list (.mk h _) =>
    Operand.forall₂_elementConditions operand operand' h

private theorem Block.forall₂_elementConditions : (b : Block) → ∀ b', b.Rel L b' →
    List.Forall₂ (Condition.Rel L) b.elementConditions b'.elementConditions
  | ⟨_, _, children, _, _⟩, _, .mk h => Node.forall₂_elementConditions children _ h

private theorem Node.forall₂_elementConditions : (nodes : List Node) →
    ∀ nodes', List.Forall₂ (Node.Rel L) nodes nodes' →
    List.Forall₂ (Condition.Rel L) (Node.elementConditionsAll nodes)
      (Node.elementConditionsAll nodes')
  | [], _, .nil => .nil
  | .block b :: rest, _, .cons (.block h) hrest =>
    List.rel_append (Block.forall₂_elementConditions b _ h)
      (Node.forall₂_elementConditions rest _ hrest)
  | .condition ⟨_, _, _, operand, _⟩ :: rest, _, .cons (.condition hc@(.mk h)) hrest => by
    refine List.rel_append ?_ (Node.forall₂_elementConditions rest _ hrest)
    rw [Node.elementConditions, Node.elementConditions, ← hc.isComplete_eq]
    split
    · exact .cons hc (Operand.forall₂_elementConditions operand _ h)
    · exact .nil

end

/-- Lists of related items collect the same where related items do. -/
theorem flatMap_eq_of_forall₂ {α β : Type} {R : α → α → Prop} {f g : α → List β} {l l' : List α}
    (h : List.Forall₂ R l l') (hfg : ∀ a a', R a a' → f a = g a') :
    l.flatMap f = l'.flatMap g := by
  induction h with
  | nil => rfl
  | cons haa _ ih => rw [List.flatMap_cons, List.flatMap_cons, hfg _ _ haa, ih]

namespace Resolver

variable {r : Resolver}

private theorem conditionLists_eq {c c' : Condition} (h : c.Rel L c') :
    r.conditionLists c = r.conditionLists c' := by
  rw [conditionLists, conditionLists, h.fieldName?_eq]

private theorem conditionPaths_eq {c c' : Condition} (h : c.Rel L c') :
    r.conditionPaths c = r.conditionPaths c' := by
  rw [conditionPaths, conditionPaths, h.fieldName?_eq]

private theorem conditionVariables_eq {c c' : Condition} (h : c.Rel L c') :
    r.conditionVariables c = r.conditionVariables c' := by
  rw [conditionVariables, conditionVariables, h.fieldName?_eq]

private theorem elementLists_eq {free : Bool} {operand operand' : Operand}
    (h : operand.Rel L free operand') : r.elementLists operand = r.elementLists operand' :=
  flatMap_eq_of_forall₂ (operand.forall₂_elementConditions _ h) fun _ _ hc ↦ conditionLists_eq hc

/-- Whether an element predicate is entered does not depend on literals. -/
theorem entersOperand_eq {c c' : Condition} (h : c.Rel L c') :
    r.entersOperand c = r.entersOperand c' := by
  have hoperand : ∀ op, c.operand.isEntered op = c'.operand.isEntered op := by
    intro op
    cases h with
    | mk h =>
      cases h with
      | literal | nested => rfl
      | list hd => rw [Operand.isEntered, Operand.isEntered, hd.arrayPath?_eq, hd.listOperator?_eq]
  simp only [entersOperand, h.fieldName?_eq, h.operator_eq, hoperand]

end Resolver

/-- What usage collects from two conditions is the same. -/
structure Resolver.CountAlike (r : Resolver) (c c' : Condition) : Prop where
  lists : r.conditionLists c = r.conditionLists c'
  paths : r.conditionPaths c = r.conditionPaths c'
  arithmetic : r.conditionVariables c = r.conditionVariables c'
  elementLists : r.elementLists c.operand = r.elementLists c'.operand
  array : c.operand.list?.bind ListCondition.arrayPath? =
    c'.operand.list?.bind ListCondition.arrayPath?

namespace Usage

variable {r : Resolver} {blocks blocks' : List Block}

/-- Filters whose conditions count alike use the same paths and variables. -/
theorem ofBlocks_eq_of_countAlike (h : List.Forall₂ r.CountAlike
      (blocks.flatMap Block.plainConditions) (blocks'.flatMap Block.plainConditions)) :
    (ofBlocks r blocks).baseFields = (ofBlocks r blocks').baseFields ∧
      (ofBlocks r blocks).arithmeticVariables = (ofBlocks r blocks').arithmeticVariables ∧
      (ofBlocks r blocks).listVariables = (ofBlocks r blocks').listVariables := by
  have hlists := flatMap_eq_of_forall₂ h
    (f := fun c ↦ r.conditionLists c ++ r.elementLists c.operand)
    (g := fun c ↦ r.conditionLists c ++ r.elementLists c.operand)
    fun c c' hc ↦ by rw [hc.lists, hc.elementLists]
  have hpaths := flatMap_eq_of_forall₂ h
    (f := fun c ↦
      r.conditionPaths c ++ (c.operand.list?.bind ListCondition.arrayPath?).toList)
    (g := fun c ↦
      r.conditionPaths c ++ (c.operand.list?.bind ListCondition.arrayPath?).toList)
    fun c c' hc ↦ by rw [hc.paths, hc.array]
  have hvariables := flatMap_eq_of_forall₂ h fun c c' hc ↦ hc.arithmetic
  simp only [ofBlocks]
  rw [hlists, hpaths, hvariables]
  exact ⟨rfl, rfl, rfl⟩

/-- Corresponding filters use the same paths and variables, and corresponding negated blocks. -/
theorem ofBlocks_eq (h : List.Forall₂ (Block.Rel L) blocks blocks') :
    (ofBlocks r blocks).baseFields = (ofBlocks r blocks').baseFields ∧
      (ofBlocks r blocks).arithmeticVariables = (ofBlocks r blocks').arithmeticVariables ∧
      (ofBlocks r blocks).listVariables = (ofBlocks r blocks').listVariables := by
  have hconditions : List.Forall₂ (Condition.Rel L) (blocks.flatMap Block.plainConditions)
      (blocks'.flatMap Block.plainConditions) :=
    List.rel_flatMap h fun b b' hb ↦ Block.forall₂_plainConditions b b' hb
  exact ofBlocks_eq_of_countAlike <| hconditions.imp fun c c' hc ↦
    { lists := Resolver.conditionLists_eq hc
      paths := Resolver.conditionPaths_eq hc
      arithmetic := Resolver.conditionVariables_eq hc
      elementLists := Resolver.elementLists_eq hc.operand
      array := hc.operand.arrayPath?_eq }

end Usage

section Mono

variable {M : Bool → Json → Json → Prop}

mutual

/-- Blocks correspond by every weaker relation, too. -/
theorem Block.Rel.mono (hLM : ∀ free v w, L free v w → M free v w) : (b : Block) →
    ∀ b', b.Rel L b' → b.Rel M b'
  | ⟨_, _, children, _, _⟩, _, .mk h => .mk (Node.forall₂_mono hLM children _ h)

/-- Nodes correspond by every weaker relation, too. -/
theorem Node.forall₂_mono (hLM : ∀ free v w, L free v w → M free v w) : (nodes : List Node) →
    ∀ nodes', List.Forall₂ (Node.Rel L) nodes nodes' → List.Forall₂ (Node.Rel M) nodes nodes'
  | [], _, .nil => .nil
  | .block b :: rest, _, .cons (.block h) hrest =>
    .cons (.block (Block.Rel.mono hLM b _ h)) (Node.forall₂_mono hLM rest _ hrest)
  | .condition ⟨_, _, _, operand, _⟩ :: rest, _, .cons (.condition (.mk h)) hrest =>
    .cons (.condition (.mk (Operand.Rel.mono hLM operand _ h)))
      (Node.forall₂_mono hLM rest _ hrest)

/-- Operands correspond by every weaker relation, too. -/
theorem Operand.Rel.mono (hLM : ∀ free v w, L free v w → M free v w) {free : Bool} :
    (operand : Operand) → ∀ operand', operand.Rel L free operand' →
    operand.Rel M free operand'
  | .literal _, _, .literal h => .literal (hLM _ _ _ h)
  | .nested b, _, .nested h => .nested (Block.Rel.mono hLM b _ h)
  | .list ⟨_, _, _, operand, _, _, _⟩, _, .list (.mk h hvalue) => by
    refine .list (.mk (Operand.Rel.mono hLM operand _ h) ?_)
    cases hvalue with
    | none => exact .none
    | some hv => exact .some (hLM _ _ _ hv)

end

/-- Conditions correspond by every weaker relation, too. -/
theorem Condition.Rel.mono (hLM : ∀ free v w, L free v w → M free v w) {c c' : Condition}
    (h : c.Rel L c') : c.Rel M c' := by
  cases h with
  | mk h => exact .mk (Operand.Rel.mono hLM _ _ h)

end Mono

mutual

/-- Blocks that are equal correspond, their literals being equal. -/
theorem Block.rel_of_same : (a b : Block) → a.same b = true →
    a.Rel (fun _ v w ↦ v.same w = true) b
  | ⟨_, _, children, _, _⟩, ⟨_, _, children', _, _⟩, h => by
    simp only [Block.same, Bool.and_eq_true, beq_iff_eq] at h
    obtain ⟨⟨⟨⟨rfl, rfl⟩, hchildren⟩, rfl⟩, rfl⟩ := h
    exact .mk (Node.rel_of_sameAll children children' hchildren)

/-- Nodes that are equal correspond. -/
theorem Node.rel_of_sameAll : (ns ms : List Node) → Node.sameAll ns ms = true →
    List.Forall₂ (Node.Rel fun _ v w ↦ v.same w = true) ns ms
  | [], [], _ => .nil
  | [], _ :: _, h | _ :: _, [], h => by simp [Node.sameAll] at h
  | n :: ns, m :: ms, h => by
    rw [Node.sameAll, Bool.and_eq_true] at h
    exact .cons (Node.rel_of_same n m h.1) (Node.rel_of_sameAll ns ms h.2)

/-- Two nodes that are equal correspond. -/
theorem Node.rel_of_same : (n m : Node) → n.same m = true →
    n.Rel (fun _ v w ↦ v.same w = true) m
  | .block a, .block b, h => .block (Block.rel_of_same a b (by rwa [Node.same] at h))
  | .block _, .condition _, h | .condition _, .block _, h => by simp [Node.same] at h
  | .condition ⟨_, _, _, operand, _⟩, .condition ⟨_, _, _, operand', _⟩, h => by
    simp only [Node.same, Condition.same, Bool.and_eq_true, beq_iff_eq] at h
    obtain ⟨⟨⟨⟨rfl, rfl⟩, rfl⟩, hoperand⟩, rfl⟩ := h
    exact .condition (.mk (Operand.rel_of_same operand operand' hoperand))

/-- Two operands that are equal correspond. -/
theorem Operand.rel_of_same {free : Bool} : (a b : Operand) → a.same b = true →
    a.Rel (fun _ v w ↦ v.same w = true) free b
  | .literal v, .literal w, h => .literal (by rwa [Operand.same] at h)
  | .nested a, .nested b, h => .nested (Block.rel_of_same a b (by rwa [Operand.same] at h))
  | .literal _, .nested _, h | .literal _, .list _, h | .nested _, .literal _, h
  | .nested _, .list _, h | .list _, .literal _, h | .list _, .nested _, h => by
    simp [Operand.same] at h
  | .list ⟨_, _, _, operand, _, value, _⟩, .list ⟨_, _, _, operand', _, value', _⟩, h => by
    cases value with
    | none =>
      cases value' with
      | none =>
        simp only [Operand.same, ListCondition.same, Bool.and_eq_true, beq_iff_eq] at h
        obtain ⟨⟨⟨⟨⟨⟨rfl, rfl⟩, rfl⟩, hoperand⟩, rfl⟩, -⟩, rfl⟩ := h
        exact .list (.mk (Operand.rel_of_same operand operand' hoperand) .none)
      | some w => simp [Operand.same, ListCondition.same] at h
    | some v =>
      cases value' with
      | none => simp [Operand.same, ListCondition.same] at h
      | some w =>
        simp only [Operand.same, ListCondition.same, Bool.and_eq_true, beq_iff_eq] at h
        obtain ⟨⟨⟨⟨⟨⟨rfl, rfl⟩, rfl⟩, hoperand⟩, rfl⟩, hvalue⟩, rfl⟩ := h
        exact .list (.mk (Operand.rel_of_same operand operand' hoperand) (.some hvalue))

end

end FilterPipeline
