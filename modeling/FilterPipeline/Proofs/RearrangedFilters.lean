import FilterPipeline.Proofs.ElementPredicates

/-!
# Filters within each other

A block is within another if it is the same but for its children and each of these is within a child
of the other; so it is with the blocks of element predicates. Two blocks in which children are in
different orders or different numbers of times, at any depth, are within each other. Main statement:
a condition that stands in a block, or in an element predicate, is within one that stands there in
any block that the block is within.
-/

namespace FilterPipeline

mutual

/-- Two blocks are the same but for their children, and those of the first are within some of the
second. -/
inductive Block.Within : Block → Block → Prop
  | mk {id : String} {logic : Logic} {children children' : List Node} {name : Option String}
      {mustHold : Bool} (h : Node.AllWithin children children') :
      Block.Within ⟨id, logic, children, name, mustHold⟩ ⟨id, logic, children', name, mustHold⟩

/-- Each of some nodes is within one of some others. -/
inductive Node.AllWithin : List Node → List Node → Prop
  | nil {nodes' : List Node} : Node.AllWithin [] nodes'
  | cons {n n' : Node} {rest nodes' : List Node} (hn' : n' ∈ nodes') (h : Node.Within n n')
      (hrest : Node.AllWithin rest nodes') : Node.AllWithin (n :: rest) nodes'

/-- Two nodes are blocks or conditions one within the other. -/
inductive Node.Within : Node → Node → Prop
  | block {b b' : Block} (h : Block.Within b b') : Node.Within (.block b) (.block b')
  | condition {c c' : Condition} (h : Condition.Within c c') :
      Node.Within (.condition c) (.condition c')

/-- Two conditions are the same but for their operands, which are one within the other. -/
inductive Condition.Within : Condition → Condition → Prop
  | mk {id : String} {field : Option String} {op : Option Operator} {operand operand' : Operand}
      {switch : Option Bool} (h : Operand.Within operand operand') :
      Condition.Within ⟨id, field, op, operand, switch⟩ ⟨id, field, op, operand', switch⟩

/-- Two operands are the same but for their blocks, which are one within the other. -/
inductive Operand.Within : Operand → Operand → Prop
  | literal {v : Json} : Operand.Within (.literal v) (.literal v)
  | nested {b b' : Block} (h : Block.Within b b') : Operand.Within (.nested b) (.nested b')
  | list {field : String} {op : Option Operator} {subField : Option String}
      {operand operand' : Operand} {comparison : Option Operator} {value : Option Json}
      {switch : Option Bool} (h : Operand.Within operand operand') :
      Operand.Within (.list ⟨field, op, subField, operand, comparison, value, switch⟩)
        (.list ⟨field, op, subField, operand', comparison, value, switch⟩)

end

/-- Each of some nodes is within one of the others just when it is so for each of them. -/
theorem Node.allWithin_iff {nodes nodes' : List Node} :
    Node.AllWithin nodes nodes' ↔ ∀ n ∈ nodes, ∃ n' ∈ nodes', n.Within n' := by
  induction nodes with
  | nil => exact iff_of_true .nil (List.forall_mem_nil _)
  | cons n rest ih =>
    rw [List.forall_mem_cons, ← ih]
    constructor
    · rintro (_ | ⟨hn', h, hrest⟩)
      exact ⟨⟨_, hn', h⟩, hrest⟩
    · rintro ⟨⟨n', hn', h⟩, hrest⟩
      exact .cons hn' h hrest

private theorem Block.Within.isNegatedNamed_eq {b b' : Block} (h : b.Within b') :
    b.isNegatedNamed = b'.isNegatedNamed := by
  cases h
  rfl

/-- Each child of a block is within one of the block that it is within. -/
theorem Block.Within.exists_child {b b' : Block} (h : b.Within b') {n : Node}
    (hn : n ∈ b.children) : ∃ n' ∈ b'.children, n.Within n' := by
  cases h with
  | mk h => exact Node.allWithin_iff.mp h n hn

namespace Condition.Within

variable {c c' : Condition} (h : c.Within c')

include h

/-- A condition within another one is on the same field. -/
theorem fieldName?_eq : c.fieldName? = c'.fieldName? := by
  cases h
  rfl

/-- A condition within another one is complete when that is. -/
theorem isComplete_eq : c.isComplete = c'.isComplete := by
  cases h
  rfl

/-- The operand of a condition within another one is within its operand. -/
theorem operand : c.operand.Within c'.operand := by
  cases h
  assumption

/-- The conditions' list conditions name the same array. -/
theorem arrayPath?_eq : c.operand.list?.bind ListCondition.arrayPath? =
    c'.operand.list?.bind ListCondition.arrayPath? := by
  cases h with
  | mk h => cases h <;> rfl

end Condition.Within

/-- The element predicate of an operand is within that of an operand that it is within. -/
theorem Operand.HasPredicate.within {operand operand' : Operand} {b : Block}
    (hb : operand.HasPredicate b) (h : operand.Within operand') :
    ∃ b', operand'.HasPredicate b' ∧ b.Within b' := by
  induction hb generalizing operand' with
  | nested =>
    cases h with
    | nested h => exact ⟨_, .nested, h⟩
  | list _ ih =>
    cases h with
    | list h =>
      obtain ⟨b', hb', h⟩ := ih h
      exact ⟨b', .list hb', h⟩

/-- A condition of a block is within one of a block that the block is within. -/
theorem Block.HasCondition.within {b b' : Block} {c : Condition} (hc : b.HasCondition c)
    (h : b.Within b') : ∃ c', b'.HasCondition c' ∧ c.Within c' := by
  induction hc generalizing b' with
  | here hplain hc =>
    rw [h.isNegatedNamed_eq] at hplain
    obtain ⟨_, hn', ⟨⟩ | ⟨h⟩⟩ := h.exists_child hc
    exact ⟨_, .here hplain hn', h⟩
  | block hplain hinner _ ih =>
    rw [h.isNegatedNamed_eq] at hplain
    obtain ⟨_, hn', ⟨h⟩ | ⟨⟩⟩ := h.exists_child hinner
    obtain ⟨c', hc', hwithin⟩ := ih h
    exact ⟨c', .block hplain hn' hc', hwithin⟩

section Elements

variable {entered : Condition → Prop}
  (hentered : ∀ {c c' : Condition}, c.Within c' → entered c → entered c')

include hentered

private theorem Block.HasElement.within {b b' : Block} {c : Condition} (hc : b.HasElement entered c)
    (h : b.Within b') : ∃ c', b'.HasElement entered c' ∧ c.Within c' := by
  induction hc generalizing b' with
  | here hc =>
    obtain ⟨_, hn', ⟨⟩ | ⟨h⟩⟩ := h.exists_child hc
    exact ⟨_, .here hn', h⟩
  | block hinner _ ih =>
    obtain ⟨_, hn', ⟨h⟩ | ⟨⟩⟩ := h.exists_child hinner
    obtain ⟨c', hc', hwithin⟩ := ih h
    exact ⟨c', .block hn' hc', hwithin⟩
  | value houter hin hinner _ ih =>
    obtain ⟨_, hn', ⟨⟩ | ⟨h⟩⟩ := h.exists_child houter
    obtain ⟨inner', hinner', hblock⟩ := hinner.within h.operand
    obtain ⟨c', hc', hwithin⟩ := ih hblock
    exact ⟨c', .value hn' (hentered h hin) hinner' hc', hwithin⟩

/-- A condition of an operand's element predicate is within one of an operand that this one is
within. -/
theorem Operand.HasElement.within {operand operand' : Operand} {c : Condition}
    (hc : operand.HasElement entered c) (h : operand.Within operand') :
    ∃ c', operand'.HasElement entered c' ∧ c.Within c' := by
  obtain ⟨b, hb, hc⟩ := hc
  obtain ⟨b', hb', hblock⟩ := hb.within h
  obtain ⟨c', hc', hwithin⟩ := Block.HasElement.within hentered hc hblock
  exact ⟨c', ⟨b', hb', hc'⟩, hwithin⟩

end Elements

mutual

/-- A block is within itself. -/
theorem Block.Within.refl : (b : Block) → b.Within b
  | ⟨_, _, children, _, _⟩ =>
    .mk (Node.allWithin_iff.mpr fun n hn ↦ ⟨n, hn, Node.within_of_mem children n hn⟩)

/-- Each of some nodes is within itself. -/
theorem Node.within_of_mem : (nodes : List Node) → ∀ n ∈ nodes, n.Within n
  | [] => List.forall_mem_nil _
  | n :: rest => List.forall_mem_cons.mpr ⟨Node.Within.refl n, Node.within_of_mem rest⟩

/-- A node is within itself. -/
theorem Node.Within.refl : (n : Node) → n.Within n
  | .block b => .block (Block.Within.refl b)
  | .condition ⟨_, _, _, operand, _⟩ => .condition (.mk (Operand.Within.refl operand))

/-- An operand is within itself. -/
theorem Operand.Within.refl : (operand : Operand) → operand.Within operand
  | .literal _ => .literal
  | .nested b => .nested (Block.Within.refl b)
  | .list ⟨_, _, _, operand, _, _, _⟩ => .list (Operand.Within.refl operand)

end

/-- Nodes are within others if they are among them, in whatever order and however often. -/
theorem Node.allWithin_of_subset {nodes nodes' : List Node} (h : nodes ⊆ nodes') :
    Node.AllWithin nodes nodes' :=
  Node.allWithin_iff.mpr fun n hn ↦ ⟨n, h hn, Node.Within.refl n⟩

end FilterPipeline
