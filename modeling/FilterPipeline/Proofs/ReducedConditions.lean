import FilterPipeline.Compile.Circularity
import FilterPipeline.Compile.QueryForm
import FilterPipeline.Proofs.CorrespondingFilters
import FilterPipeline.Proofs.ReducedFilters

/-!
# What reducing a filter keeps

What the compiler collects from the nodes of a block and what it compiles them to is compared with
the same for what is left of the nodes when nothing is redundant any more. Main statements: a block
is compiled to the same expression and enters the same list variables; and the complete conditions
and the negated named blocks that are left are those that were there, reduced themselves.
-/

namespace FilterPipeline

open Fragment Relation

namespace Operand

/-- Reducing keeps the literal of an operand. -/
@[simp]
theorem literal?_normal (operand : Operand) : operand.normal.literal? = operand.literal? := by
  cases operand with
  | literal v => rfl
  | nested b => rfl
  | list d => rw [normal_list]; rfl

/-- Reducing an operand keeps the array of its list condition. -/
@[simp]
theorem arrayPath?_normal (operand : Operand) :
    operand.normal.list?.bind ListCondition.arrayPath? =
      operand.list?.bind ListCondition.arrayPath? := by
  cases operand with
  | literal v => rfl
  | nested b => rfl
  | list d => rw [normal_list]; rfl

/-- Reducing keeps whether the predicate of an operand is entered. -/
@[simp]
theorem isEntered_normal (op : Operator) (operand : Operand) :
    operand.normal.isEntered op = operand.isEntered op := by
  cases operand with
  | literal v => rfl
  | nested b => rfl
  | list d => rw [normal_list]; rfl

end Operand

namespace Condition

variable (c : Condition)

/-- Reducing keeps the field of a condition. -/
@[simp]
theorem fieldName?_normal : c.normal.fieldName? = c.fieldName? := rfl

/-- Reducing keeps the operator of a condition. -/
@[simp]
theorem operator_normal : c.normal.operator = c.operator := rfl

/-- Reducing keeps whether a condition is complete. -/
@[simp]
theorem isComplete_normal : c.normal.isComplete = c.isComplete := rfl

/-- Reducing a condition is reducing its operand. -/
@[simp]
theorem operand_normal : c.normal.operand = c.operand.normal := rfl

/-- Reducing keeps the switch of a condition. -/
@[simp]
theorem switch_normal : c.normal.switch = c.switch := rfl

/-- Reducing keeps whether a condition is negated. -/
@[simp]
theorem isNegated_normal : c.normal.isNegated = c.isNegated := rfl

/-- Reducing keeps whether a condition asks for falsity. -/
@[simp]
theorem asksForFalse_normal (op : Operator) : c.normal.asksForFalse op = c.asksForFalse op := by
  simp only [asksForFalse, operand_normal, Operand.literal?_normal]

/-- Of a condition field or operator is missing. -/
theorem isComplete_eq_false_iff :
    c.isComplete = false ↔ c.fieldName? = none ∨ c.operator = none := by
  rw [isComplete, Bool.and_eq_false_iff, Option.isSome_eq_false_iff, Option.isSome_eq_false_iff,
    Option.isNone_iff_eq_none, Option.isNone_iff_eq_none]

end Condition

/-- Reducing keeps whether the operand of a condition is entered. -/
@[simp]
theorem Resolver.entersOperand_normal (r : Resolver) (c : Condition) :
    r.entersOperand c.normal = r.entersOperand c := by
  simp [entersOperand]

/-! ### Expressions -/

namespace Generator

variable (g : Generator)

private theorem ofListCondition?_normal (d : ListCondition) (outer : Option Operator)
    (scope : Scope) (element : Option Json) :
    ListQuery.ofListCondition? { d with operand := d.operand.normal } outer scope element =
      ListQuery.ofListCondition? d outer scope element := by
  simp only [ListQuery.ofListCondition?, Operand.literal?_normal]
  rfl

private theorem baseExpr_normal (scope : Scope) (field : String) (op : Operator) (operand : Operand)
    (element : Option Json) :
    g.baseExpr scope field op operand.normal element =
      g.baseExpr scope field op operand element := by
  cases operand with
  | literal v => rfl
  | nested b => cases op <;> rfl
  | list d => rw [Operand.normal_list, baseExpr, baseExpr, ofListCondition?_normal]

private theorem baseQuery_normal (field : String) (op : Operator) (operand : Operand)
    (element : Option Json) :
    g.baseQuery field op operand.normal element = g.baseQuery field op operand element := by
  cases operand with
  | literal v => rfl
  | nested b => cases op <;> rfl
  | list d => rw [Operand.normal_list, baseQuery, baseQuery, ofListCondition?_normal]

private theorem listReferenceExpr_normal (c : Condition) (op : Operator) (v : ListVariable) :
    g.listReferenceExpr c.normal op v = g.listReferenceExpr c op v := by
  simp only [listReferenceExpr, Condition.operand_normal, Operand.literal?_normal,
    Condition.asksForFalse_normal, Condition.switch_normal, Condition.isNegated_normal]
  rfl

private theorem conditionExpr_normal (scope : Scope) (c : Condition) (element : Option Json) :
    g.conditionExpr scope c.normal element = g.conditionExpr scope c element := by
  simp only [conditionExpr, Condition.fieldName?_normal, Condition.operator_normal,
    Condition.operand_normal, Operand.literal?_normal, Condition.isNegated_normal,
    listReferenceExpr_normal, baseExpr_normal]
  rfl

/-- A reduced condition is compiled to the same query. -/
theorem conditionQuery_normal (p : Projection) (c : Condition) (element : Option Json) :
    g.conditionQuery p c.normal element = g.conditionQuery p c element := by
  simp only [conditionQuery, materializedQuery, Condition.fieldName?_normal,
    Condition.operator_normal, Condition.operand_normal, Operand.literal?_normal,
    Condition.isNegated_normal, listReferenceExpr_normal, baseQuery_normal]
  rfl

private theorem conditionExpr_eq_none (scope : Scope) {c : Condition} (h : c.isComplete = false)
    (element : Option Json) : g.conditionExpr scope c element = none := by
  rcases c.isComplete_eq_false_iff.mp h with h | h <;> simp [conditionExpr, h]

/-- An incomplete condition is compiled to no query. -/
theorem conditionQuery_eq_none (p : Projection) {c : Condition} (h : c.isComplete = false)
    (element : Option Json) : g.conditionQuery p c element = none := by
  rcases c.isComplete_eq_false_iff.mp h with h | h <;> simp [conditionQuery, h]

private theorem nodeExprs_children (scope : Scope) {b : Block} (hplain : b.isNegatedNamed = false)
    (hb : b.children.length ≤ 1) :
    g.nodeExprs scope b.children = g.nodeExprs scope [.block b] := by
  have hlength : (g.nodeExprs scope b.children).length ≤ 1 := by
    match b.children, hb with
    | [], _ => exact Nat.zero_le 1
    | [n], _ => cases h : g.nodeExpr scope n <;> simp [nodeExprs, h]
  rw [nodeExprs_cons, nodeExpr, blockExpr_eq, childrenExpr, hplain, nodeExprs, List.append_nil]
  simp only [Bool.false_eq_true, if_false, Option.map_id']
  rw [Logic.toList_combine hlength]

/-- The children of a plain block with at most one child are compiled as the block is. -/
theorem nodeQueries_children (p : Projection) {b : Block} (hplain : b.isNegatedNamed = false)
    (hb : b.children.length ≤ 1) :
    g.nodeQueries p b.children = g.nodeQueries p [.block b] := by
  have hlength : (g.nodeQueries p b.children).length ≤ 1 := by
    match b.children, hb with
    | [], _ => exact Nat.zero_le 1
    | [.block inner], _ =>
      rw [nodeQueries_block, nodeQueries, List.append_nil]
      exact Option.length_toList_le
    | [.condition c], _ =>
      rw [nodeQueries_condition, nodeQueries, List.append_nil]
      exact Option.length_toList_le
  rw [nodeQueries_block, blockQuery_of_plain g p hplain, nodeQueries, List.append_nil,
    Logic.toList_combine hlength]

/-- The operand of a condition is compiled alike where its element predicate is. -/
theorem operandExpr_normal (scope : Scope) {c : Condition}
    (h : ∀ field,
      g.elementExpr scope field c.operand.normal = g.elementExpr scope field c.operand) :
    g.operandExpr scope c.normal = g.operandExpr scope c := by
  simp only [operandExpr, Resolver.entersOperand_normal, Condition.fieldName?_normal,
    Condition.operand_normal, h]

private theorem nodeExprs_condition (scope : Scope) {c : Condition}
    (h : ∀ field,
      g.elementExpr scope field c.operand.normal = g.elementExpr scope field c.operand) :
    g.nodeExprs scope (Node.normal (.condition c)) = g.nodeExprs scope [.condition c] := by
  rw [Node.normal_condition]
  split
  · rw [nodeExprs_cons, nodeExprs_cons, nodeExpr_condition, nodeExpr_condition,
      conditionExpr_normal, g.operandExpr_normal scope h]
  · next hincomplete =>
    rw [nodeExprs_cons, nodeExpr_condition,
      g.conditionExpr_eq_none scope (Bool.eq_false_iff.mpr hincomplete)]
    rfl

mutual

/-- A block is compiled to the same expression when nothing is redundant below it. -/
theorem blockExpr_normal (scope : Scope) : (b : Block) →
    g.blockExpr scope b.normal = g.blockExpr scope b
  | ⟨_, _, children, _, _⟩ => by
    rw [Block.normal, blockExpr, blockExpr, nodeExprs_normalAll scope children]
    rfl

/-- Reduced nodes are compiled to the same expressions. -/
theorem nodeExprs_normalAll (scope : Scope) : (nodes : List Node) →
    g.nodeExprs scope (Node.normalAll nodes) = g.nodeExprs scope nodes
  | [] => rfl
  | n :: rest => by
    rw [Node.normalAll, nodeExprs_append, nodeExprs_normal scope n, nodeExprs_normalAll scope rest,
      ← nodeExprs_append, List.singleton_append]

/-- What is left of a node is compiled to the same expressions. -/
theorem nodeExprs_normal (scope : Scope) : (n : Node) →
    g.nodeExprs scope n.normal = g.nodeExprs scope [n]
  | .block b => by
    rw [Node.normal, Block.map_unwrapped _ fun _ ↦ g.nodeExprs_children scope, nodeExprs_cons,
      nodeExprs_cons, nodeExpr, nodeExpr, blockExpr_normal scope b]
  | .condition ⟨_, _, _, operand, _⟩ =>
    g.nodeExprs_condition scope fun field ↦ elementExpr_normal scope field operand

/-- An element predicate is compiled to the same expression when nothing is redundant below it. -/
theorem elementExpr_normal (scope : Scope) (field : String) : (operand : Operand) →
    g.elementExpr scope field operand.normal = g.elementExpr scope field operand
  | .literal _ => rfl
  | .nested b => blockExpr_normal (.element (scope.schemaPath field)) b
  | .list ⟨_, _, _, .literal _, _, _, _⟩ => rfl
  | .list ⟨array, _, _, .nested b, _, _, _⟩ =>
    blockExpr_normal (.element (scope.schemaPath (Text.trimmed array))) b
  | .list ⟨_, _, _, .list ⟨_, _, _, _, _, _, _⟩, _, _, _⟩ => rfl

end

/-- The children of a block are compiled to the same expression when nothing is redundant below
it. -/
theorem childrenExpr_normal (scope : Scope) (b : Block) :
    g.childrenExpr scope b.normal = g.childrenExpr scope b := by
  rw [childrenExpr, childrenExpr, Block.children_normal, nodeExprs_normalAll, Block.normal_eq]

end Generator

/-! ### What is used and what is entered -/

namespace Resolver

variable (r : Resolver)

private theorem conditionEntries_normal (c : Condition) (element : List String) :
    r.conditionEntries c.normal element = r.conditionEntries c element := by
  simp only [conditionEntries, Condition.fieldName?_normal, Condition.operator_normal,
    entersOperand_normal]

private theorem conditionEntries_eq_nil {c : Condition} (h : c.isComplete = false)
    (element : List String) : r.conditionEntries c element = [] := by
  rcases c.isComplete_eq_false_iff.mp h with h | h <;> simp [conditionEntries, h]

private theorem nodeEntries_children (b : Block) :
    r.nodeEntries b.children = r.nodeEntries [.block b] := by
  cases b
  rw [nodeEntries, blockEntries, nodeEntries, List.append_nil]

mutual

/-- A block enters the same list variables when nothing is redundant below it. -/
theorem blockEntries_normal : (b : Block) → r.blockEntries b.normal = r.blockEntries b
  | ⟨_, _, children, _, _⟩ => nodeEntries_normalAll children

/-- Reduced nodes enter the same definitions. -/
theorem nodeEntries_normalAll : (nodes : List Node) →
    r.nodeEntries (Node.normalAll nodes) = r.nodeEntries nodes
  | [] => rfl
  | n :: rest => by
    rw [Node.normalAll, nodeEntries_append, nodeEntries_normal n, nodeEntries_normalAll rest,
      ← nodeEntries_append, List.singleton_append]

/-- What is left of a node enters the same definitions. -/
theorem nodeEntries_normal : (n : Node) → r.nodeEntries n.normal = r.nodeEntries [n]
  | .block b => by
    rw [Node.normal, Block.map_unwrapped _ fun b _ _ ↦ r.nodeEntries_children b]
    simp only [nodeEntries, blockEntries_normal b]
  | .condition ⟨id, field, operator, operand, switch⟩ => by
    have helement := elementEntries_normal operand
    rw [Node.normal_condition]
    split
    · rw [nodeEntries_condition, nodeEntries_condition, conditionEntries_normal]
      simp only [Condition.operand_normal, helement]
    · next h =>
      rw [nodeEntries_condition, r.conditionEntries_eq_nil (Bool.eq_false_iff.mpr h)]
      rfl

/-- A reduced operand enters the same definitions. -/
theorem elementEntries_normal : (operand : Operand) →
    r.elementEntries operand.normal = r.elementEntries operand
  | .literal _ => rfl
  | .nested b => blockEntries_normal b
  | .list ⟨_, _, _, .literal _, _, _, _⟩ => rfl
  | .list ⟨_, _, _, .nested b, _, _, _⟩ => blockEntries_normal b
  | .list ⟨_, _, _, .list ⟨_, _, _, _, _, _, _⟩, _, _, _⟩ => rfl

end

end Resolver

/-! ### The conditions and the negated blocks that are left -/

private theorem Node.plainConditions_children {b : Block} (hplain : b.isNegatedNamed = false) :
    Node.plainConditions b.children = Node.plainConditions [.block b] := by
  rw [plainConditions, Block.plainConditions_of_plain hplain, plainConditions, List.append_nil]

private theorem Node.negatedBlocks_children {b : Block} (hplain : b.isNegatedNamed = false) :
    Node.negatedBlocks b.children = Node.negatedBlocks [.block b] := by
  rw [negatedBlocks, Block.negatedBlocks_of_plain hplain, negatedBlocks, List.append_nil]

private theorem Node.elementConditionsAll_children (b : Block) :
    Node.elementConditionsAll b.children = Node.elementConditionsAll [.block b] := by
  cases b
  rw [elementConditionsAll, Node.elementConditions, Block.elementConditions, elementConditionsAll,
    List.append_nil]

mutual

/-- The complete conditions of a block are left, with nothing redundant in their operands. -/
theorem Block.plainConditions_normal : (b : Block) →
    b.normal.plainConditions = b.plainConditions.map Condition.normal
  | ⟨id, logic, children, name, mustHold⟩ => by
    have hnegated := Block.isNegatedNamed_normal ⟨id, logic, children, name, mustHold⟩
    rw [Block.normal] at hnegated ⊢
    rw [Block.plainConditions, Block.plainConditions, hnegated]
    split
    · rfl
    · exact Node.plainConditions_normalAll children

/-- The conditions of reduced nodes are the reduced conditions. -/
theorem Node.plainConditions_normalAll : (nodes : List Node) →
    Node.plainConditions (Node.normalAll nodes) = (Node.plainConditions nodes).map Condition.normal
  | [] => rfl
  | .block b :: rest => by
    rw [Node.normalAll, Node.normal, Node.plainConditions_append,
      Block.map_unwrapped _ fun _ hplain _ ↦ Node.plainConditions_children hplain,
      Node.plainConditions_normalAll rest, Node.plainConditions, Node.plainConditions,
      Block.plainConditions_normal b, Node.plainConditions, List.append_nil, List.map_append]
  | .condition c :: rest => by
    rw [Node.normalAll, Node.normal_condition, Node.plainConditions_append,
      Node.plainConditions_normalAll rest, Node.plainConditions]
    split
    · next h =>
      rw [Node.plainConditions, if_pos (by rwa [Condition.isComplete_normal]), Node.plainConditions]
      rfl
    · rfl

end

mutual

/-- The negated named blocks of a block are left, with nothing redundant below them. -/
theorem Block.negatedBlocks_normal : (b : Block) →
    b.normal.negatedBlocks = b.negatedBlocks.map Block.normal
  | ⟨id, logic, children, name, mustHold⟩ => by
    have hnegated := Block.isNegatedNamed_normal ⟨id, logic, children, name, mustHold⟩
    rw [Block.normal] at hnegated ⊢
    rw [Block.negatedBlocks, Block.negatedBlocks, hnegated]
    split
    · rfl
    · exact Node.negatedBlocks_normalAll children

/-- The negated blocks of reduced nodes are the reduced negated blocks. -/
theorem Node.negatedBlocks_normalAll : (nodes : List Node) →
    Node.negatedBlocks (Node.normalAll nodes) = (Node.negatedBlocks nodes).map Block.normal
  | [] => rfl
  | .block b :: rest => by
    rw [Node.normalAll, Node.normal, Node.negatedBlocks_append,
      Block.map_unwrapped _ fun _ hplain _ ↦ Node.negatedBlocks_children hplain,
      Node.negatedBlocks_normalAll rest, Node.negatedBlocks, Node.negatedBlocks,
      Block.negatedBlocks_normal b, Node.negatedBlocks, List.append_nil, List.map_append]
  | .condition c :: rest => by
    rw [Node.normalAll, Node.normal_condition, Node.negatedBlocks_append,
      Node.negatedBlocks_normalAll rest, Node.negatedBlocks]
    split <;> rfl

end

mutual

private theorem Operand.elementConditions_normal : (operand : Operand) →
    operand.normal.elementConditions = operand.elementConditions.map Condition.normal
  | .literal _ => rfl
  | .nested b => Block.elementConditions_normal b
  | .list ⟨_, _, _, operand, _, _, _⟩ => Operand.elementConditions_normal operand

private theorem Block.elementConditions_normal : (b : Block) →
    b.normal.elementConditions = b.elementConditions.map Condition.normal
  | ⟨_, _, children, _, _⟩ => Node.elementConditions_normalAll children

private theorem Node.elementConditions_normalAll : (nodes : List Node) →
    Node.elementConditionsAll (Node.normalAll nodes) =
      (Node.elementConditionsAll nodes).map Condition.normal
  | [] => rfl
  | n :: rest => by
    rw [Node.normalAll, Node.elementConditionsAll_append, Node.elementConditions_normalAll rest,
      Node.elementConditions_normal n, Node.elementConditionsAll, List.map_append]

private theorem Node.elementConditions_normal : (n : Node) →
    Node.elementConditionsAll n.normal = n.elementConditions.map Condition.normal
  | .block b => by
    rw [Node.normal, Block.map_unwrapped _ fun b _ _ ↦ Node.elementConditionsAll_children b,
      Node.elementConditionsAll, Node.elementConditions, Node.elementConditionsAll,
      Node.elementConditions, Block.elementConditions_normal b, List.append_nil]
  | .condition ⟨id, field, operator, operand, switch⟩ => by
    rw [Node.normal, Node.elementConditions]
    split
    · next h =>
      have hcomplete : (⟨id, field, operator, operand.normal, switch⟩ : Condition).isComplete := h
      rw [Node.elementConditionsAll, Node.elementConditions, if_pos hcomplete,
        Operand.elementConditions_normal operand, Node.elementConditionsAll, List.append_nil]
      rfl
    · rfl

end

/-- A condition counts as what is left of it. -/
theorem Resolver.countAlike_normal (r : Resolver) (c : Condition) : r.CountAlike c c.normal where
  lists := rfl
  paths := rfl
  arithmetic := rfl
  elementLists := by
    rw [elementLists, elementLists, Condition.operand_normal, Operand.elementConditions_normal,
      List.flatMap_map]
    rfl
  array := by rw [Condition.operand_normal, Operand.arrayPath?_normal]

end FilterPipeline
