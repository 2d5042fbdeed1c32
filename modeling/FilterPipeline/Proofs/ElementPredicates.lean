import FilterPipeline.Compile.Usage
import Mathlib.Data.List.Basic

/-!
# Where conditions stand

A condition stands in a block outside of negated named blocks, or in an element predicate, in which
it stands at any depth of blocks and of the values of other conditions. Main statements: the lists
of conditions that usage is collected from have just the complete ones among those, and of element
predicates just those that only values of complete conditions lead to.
-/

namespace FilterPipeline

/-- A condition stands in a block, and neither the block nor one between them is a negated named
one. -/
inductive Block.HasCondition : Block → Condition → Prop
  | here {b : Block} {c : Condition} (hplain : b.isNegatedNamed = false)
      (hc : .condition c ∈ b.children) : HasCondition b c
  | block {b inner : Block} {c : Condition} (hplain : b.isNegatedNamed = false)
      (hinner : .block inner ∈ b.children) (h : HasCondition inner c) : HasCondition b c

/-- The block that is the element predicate of an operand, inside of any number of list
conditions. -/
inductive Operand.HasPredicate : Operand → Block → Prop
  | nested {b : Block} : HasPredicate (.nested b) b
  | list {d : ListCondition} {b : Block} (h : HasPredicate d.operand b) : HasPredicate (.list d) b

/-- A condition stands in a block of an element predicate, negated named blocks included, or in the
element predicate of a condition there whose value is entered. -/
inductive Block.HasElement (entered : Condition → Prop) : Block → Condition → Prop
  | here {b : Block} {c : Condition} (hc : .condition c ∈ b.children) : HasElement entered b c
  | block {b inner : Block} {c : Condition} (hinner : .block inner ∈ b.children)
      (h : HasElement entered inner c) : HasElement entered b c
  | value {b inner : Block} {outer c : Condition} (houter : .condition outer ∈ b.children)
      (hentered : entered outer) (hinner : outer.operand.HasPredicate inner)
      (h : HasElement entered inner c) : HasElement entered b c

/-- A condition stands in the element predicate of an operand. -/
def Operand.HasElement (entered : Condition → Prop) (operand : Operand) (c : Condition) : Prop :=
  ∃ b, operand.HasPredicate b ∧ b.HasElement entered c

variable {entered : Condition → Prop} {c : Condition}

/-- A literal has no element predicate. -/
@[simp]
theorem Operand.hasElement_literal {v : Json} : ¬ (literal v).HasElement entered c := by
  rintro ⟨b, h, -⟩
  cases h

/-- The conditions of a nested predicate are those of its block. -/
@[simp]
theorem Operand.hasElement_nested {b : Block} :
    (nested b).HasElement entered c ↔ b.HasElement entered c := by
  constructor
  · rintro ⟨_, h, hc⟩
    cases h
    exact hc
  · exact fun hc ↦ ⟨b, .nested, hc⟩

/-- The conditions of a list condition are those of its operand. -/
@[simp]
theorem Operand.hasElement_list {d : ListCondition} :
    (list d).HasElement entered c ↔ d.operand.HasElement entered c := by
  constructor
  · rintro ⟨b, h, hc⟩
    cases h with
    | list h => exact ⟨b, h, hc⟩
  · rintro ⟨b, h, hc⟩
    exact ⟨b, .list h, hc⟩

/-- A condition is a node, or stands in a node outside of negated named blocks. -/
def Node.HasCondition : Node → Condition → Prop
  | .block inner, c => inner.HasCondition c
  | .condition c', c => c = c'

/-- A condition is a node of an element predicate, or stands in one. -/
def Node.HasElement (entered : Condition → Prop) : Node → Condition → Prop
  | .block inner, c => inner.HasElement entered c
  | .condition outer, c => c = outer ∨ entered outer ∧ outer.operand.HasElement entered c

/-- A condition stands in a block if it stands in one of its nodes. -/
theorem Block.hasCondition_iff {b : Block} :
    b.HasCondition c ↔ b.isNegatedNamed = false ∧ ∃ n ∈ b.children, n.HasCondition c := by
  constructor
  · rintro (⟨hplain, hc⟩ | ⟨hplain, hinner, h⟩)
    · exact ⟨hplain, _, hc, rfl⟩
    · exact ⟨hplain, _, hinner, h⟩
  · rintro ⟨hplain, inner | c', hn, h⟩
    · exact .block hplain hn h
    · exact .here hplain (h ▸ hn)

/-- A condition stands in a block of an element predicate if it stands in one of its nodes. -/
theorem Block.hasElement_iff {b : Block} :
    b.HasElement entered c ↔ ∃ n ∈ b.children, n.HasElement entered c := by
  constructor
  · rintro (hc | ⟨hinner, h⟩ | ⟨houter, hentered, hinner, h⟩)
    · exact ⟨_, hc, .inl rfl⟩
    · exact ⟨_, hinner, h⟩
    · exact ⟨_, houter, .inr ⟨hentered, _, hinner, h⟩⟩
  · rintro ⟨inner | outer, hn, h⟩
    · exact .block hn h
    · rcases h with rfl | ⟨hentered, inner, hinner, h⟩
      · exact .here hn
      · exact .value hn hentered hinner h

mutual

/-- The complete conditions outside of negated named blocks are collected. -/
theorem Block.mem_plainConditions_iff : (b : Block) →
    (c ∈ b.plainConditions ↔ b.HasCondition c ∧ c.isComplete = true)
  | ⟨_, _, children, _, _⟩ => by
    rw [Block.plainConditions, Block.hasCondition_iff]
    split
    · next hneg => simp [hneg]
    · next hplain => simp [hplain, Node.mem_plainConditions_iff children]

/-- The same for several nodes. -/
theorem Node.mem_plainConditions_iff : (nodes : List Node) → (c ∈ Node.plainConditions nodes ↔
    (∃ n ∈ nodes, n.HasCondition c) ∧ c.isComplete = true)
  | [] => by simp [Node.plainConditions]
  | .block b :: rest => by
    rw [Node.plainConditions, List.mem_append, Block.mem_plainConditions_iff b,
      Node.mem_plainConditions_iff rest, List.exists_mem_cons_iff, or_and_right]
    rfl
  | .condition c' :: rest => by
    rw [Node.plainConditions, List.exists_mem_cons_iff, or_and_right,
      ← Node.mem_plainConditions_iff rest, Node.HasCondition]
    split
    · next hcomplete =>
      rw [List.mem_cons]
      exact or_congr_left (iff_self_and.mpr fun h ↦ h ▸ hcomplete)
    · next hincomplete => exact (or_iff_right fun ⟨h, hc⟩ ↦ hincomplete (h ▸ hc)).symm

end

mutual

/-- The complete conditions of element predicates are collected that only values of complete ones
lead to. -/
theorem Operand.mem_elementConditions_iff : (operand : Operand) → (c ∈ operand.elementConditions ↔
    operand.HasElement (·.isComplete = true) c ∧ c.isComplete = true)
  | .literal _ => by simp [Operand.elementConditions]
  | .nested b => by
    rw [Operand.elementConditions, Operand.hasElement_nested, Block.mem_elementConditions_iff b]
  | .list ⟨_, _, _, operand, _, _, _⟩ => by
    rw [Operand.elementConditions, Operand.hasElement_list,
      Operand.mem_elementConditions_iff operand]

/-- The same for a block of an element predicate. -/
theorem Block.mem_elementConditions_iff : (b : Block) → (c ∈ b.elementConditions ↔
    b.HasElement (·.isComplete = true) c ∧ c.isComplete = true)
  | ⟨_, _, children, _, _⟩ => by
    rw [Block.elementConditions, Block.hasElement_iff, Node.mem_elementConditionsAll_iff children]

/-- The same for several nodes of an element predicate. -/
theorem Node.mem_elementConditionsAll_iff : (nodes : List Node) →
    (c ∈ Node.elementConditionsAll nodes ↔
      (∃ n ∈ nodes, n.HasElement (·.isComplete = true) c) ∧ c.isComplete = true)
  | [] => by simp [Node.elementConditionsAll]
  | n :: rest => by
    rw [Node.elementConditionsAll, List.mem_append, Node.mem_elementConditions_iff n,
      Node.mem_elementConditionsAll_iff rest, List.exists_mem_cons_iff, ← or_and_right]

/-- The same for a node of an element predicate. -/
theorem Node.mem_elementConditions_iff : (n : Node) → (c ∈ n.elementConditions ↔
    n.HasElement (·.isComplete = true) c ∧ c.isComplete = true)
  | .block b => by
    rw [Node.elementConditions, Node.HasElement, Block.mem_elementConditions_iff b]
  | .condition ⟨id, field, op, operand, switch⟩ => by
    rw [Node.elementConditions, Node.HasElement]
    split
    · next hcomplete =>
      rw [List.mem_cons, Operand.mem_elementConditions_iff operand, or_and_right]
      simp only [hcomplete, true_and]
      exact or_congr_left (iff_self_and.mpr fun h ↦ h ▸ hcomplete)
    · next hincomplete =>
      refine iff_of_false List.not_mem_nil ?_
      rintro ⟨h | ⟨hcomplete, -⟩, hc⟩
      · exact hincomplete (h ▸ hc)
      · exact hincomplete hcomplete

end

end FilterPipeline
