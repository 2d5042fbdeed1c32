import FilterPipeline.Filter.Tree
import Mathlib.Logic.Relation

/-!
# Filters without redundant nodes

A condition without field or operator says nothing, a block without children says no more, and a
block with one child says what the child does. Reducing a filter takes such nodes out of the lists
of children, one at a time, at any depth and in element predicates too; only negated named blocks
stay, since they are computed under their names. Main statement: in whatever order a filter is
reduced, it ends in the same filter.
-/

namespace FilterPipeline

open Relation

mutual

/-- One redundant node below a block is taken out. -/
inductive Block.Reduces : Block → Block → Prop
  | children {b : Block} {children' : List Node} (h : Node.AllReduce b.children children') :
      Block.Reduces b { b with children := children' }

/-- One redundant node among some nodes, or below one of them, is taken out. -/
inductive Node.AllReduce : List Node → List Node → Prop
  | incomplete {c : Condition} {rest : List Node} (h : c.isComplete = false) :
      Node.AllReduce (.condition c :: rest) rest
  | childless {b : Block} {rest : List Node} (hplain : b.isNegatedNamed = false)
      (h : b.children = []) : Node.AllReduce (.block b :: rest) rest
  | onlyChild {b : Block} {n : Node} {rest : List Node} (hplain : b.isNegatedNamed = false)
      (h : b.children = [n]) : Node.AllReduce (.block b :: rest) (n :: rest)
  | block {b b' : Block} {rest : List Node} (h : Block.Reduces b b') :
      Node.AllReduce (.block b :: rest) (.block b' :: rest)
  | operand {c : Condition} {operand' : Operand} {rest : List Node}
      (h : Operand.Reduces c.operand operand') :
      Node.AllReduce (.condition c :: rest) (.condition { c with operand := operand' } :: rest)
  | later {n : Node} {rest rest' : List Node} (h : Node.AllReduce rest rest') :
      Node.AllReduce (n :: rest) (n :: rest')

/-- One redundant node below the block of an operand is taken out. -/
inductive Operand.Reduces : Operand → Operand → Prop
  | nested {b b' : Block} (h : Block.Reduces b b') : Operand.Reduces (.nested b) (.nested b')
  | list {d : ListCondition} {operand' : Operand} (h : Operand.Reduces d.operand operand') :
      Operand.Reduces (.list d) (.list { d with operand := operand' })

end

/-- A block is reduced as far as it goes. -/
def Block.ReducesTo (b b' : Block) : Prop :=
  ReflTransGen Block.Reduces b b' ∧ ∀ b'', ¬ b'.Reduces b''

/-- What stands in the place of a block in which nothing is redundant. -/
def Block.unwrapped (b : Block) : List Node :=
  if b.isNegatedNamed then [.block b]
  else
    match b.children with
    | [] => []
    | [n] => [n]
    | _ => [.block b]

mutual

/-- The block with nothing redundant below it. -/
def Block.normal : Block → Block
  | ⟨id, logic, children, name, mustHold⟩ => ⟨id, logic, Node.normalAll children, name, mustHold⟩

/-- What is left of several nodes when nothing is redundant any more. -/
def Node.normalAll : List Node → List Node
  | [] => []
  | n :: rest => Node.normal n ++ Node.normalAll rest

/-- What is left of a node, if anything. -/
def Node.normal : Node → List Node
  | .block b => (Block.normal b).unwrapped
  | .condition c@⟨id, field, operator, operand, switch⟩ =>
    if c.isComplete then [.condition ⟨id, field, operator, Operand.normal operand, switch⟩] else []

/-- The operand with nothing redundant below its block. -/
def Operand.normal : Operand → Operand
  | .literal v => .literal v
  | .nested b => .nested (Block.normal b)
  | .list ⟨field, operator, subField, operand, comparison, comparisonValue, switch⟩ =>
    .list ⟨field, operator, subField, Operand.normal operand, comparison, comparisonValue, switch⟩

end

/-- The condition with nothing redundant in its operand. -/
def Condition.normal (c : Condition) : Condition := { c with operand := c.operand.normal }

namespace Block

variable (b : Block)

/-- A block is reduced in its children alone. -/
theorem normal_eq : b.normal = { b with children := Node.normalAll b.children } := by
  cases b
  rfl

/-- The children of a reduced block are what is left of the children. -/
@[simp]
theorem children_normal : b.normal.children = Node.normalAll b.children := by rw [normal_eq]

/-- A reduced block is a negated named one when the block is. -/
@[simp]
theorem isNegatedNamed_normal : b.normal.isNegatedNamed = b.isNegatedNamed := by
  rw [normal_eq]
  rfl

/-- A reduced block is computed under the same name. -/
@[simp]
theorem materializedName?_normal : b.normal.materializedName? = b.materializedName? := by
  rw [normal_eq]
  rfl

/-- A reduced block has the same id. -/
@[simp]
theorem id_normal : b.normal.id = b.id := by rw [normal_eq]

/-- A block that is not unwrapped stays; of any other, the one child does, if it has one. -/
theorem unwrapped_cases : b.unwrapped = [.block b] ∨
    b.isNegatedNamed = false ∧ b.children.length ≤ 1 ∧ b.unwrapped = b.children := by
  unfold unwrapped
  split
  · exact .inl rfl
  · next hplain =>
    have hplain := Bool.eq_false_iff.mpr hplain
    split
    · next h => exact .inr ⟨hplain, by simp [h], h.symm⟩
    · next n h => exact .inr ⟨hplain, by simp [h], h.symm⟩
    · exact .inl rfl

variable {b}

/-- A block with one child at most is unwrapped, unless it is a negated named one. -/
theorem unwrapped_eq_children (hplain : b.isNegatedNamed = false) (h : b.children.length ≤ 1) :
    b.unwrapped = b.children := by
  rw [unwrapped, if_neg (by simp [hplain])]
  match hc : b.children, h with
  | [], _ => rfl
  | [_], _ => rfl

private theorem length_unwrapped_le : b.unwrapped.length ≤ 1 := by
  obtain h | ⟨-, hlength, h⟩ := b.unwrapped_cases
  · simp [h]
  · rwa [h]

/-- What lists of nodes are mapped to does not change when a block is unwrapped if it does not for
blocks with one child at most. -/
theorem map_unwrapped {α : Type} (f : List Node → α)
    (hf : ∀ b : Block, b.isNegatedNamed = false → b.children.length ≤ 1 →
      f b.children = f [.block b]) (b : Block) : f b.unwrapped = f [.block b] := by
  obtain h | ⟨hplain, hlength, h⟩ := b.unwrapped_cases
  · rw [h]
  · rw [h, hf b hplain hlength]

end Block

/-- Of a condition nothing is left, or the condition. -/
theorem Node.normal_condition (c : Condition) :
    Node.normal (.condition c) = if c.isComplete then [.condition c.normal] else [] := by
  cases c
  rfl

/-- At most one node is left of a node. -/
theorem Node.length_normal_le (n : Node) : n.normal.length ≤ 1 := by
  cases n with
  | block b =>
    rw [Node.normal]
    exact Block.length_unwrapped_le
  | condition c =>
    rw [Node.normal_condition]
    split
    · exact Nat.le_refl 1
    · exact Nat.zero_le 1

/-- A list condition is reduced in its operand alone. -/
theorem Operand.normal_list (d : ListCondition) :
    (Operand.list d).normal = .list { d with operand := d.operand.normal } := by
  cases d
  rfl

/-! ### What is left does not depend on the steps that were made -/

mutual

/-- A step in a block does not change what is left of it. -/
theorem Block.Reduces.normal_eq {b b' : Block} : b.Reduces b' → b.normal = b'.normal
  | .children h => by rw [Block.normal_eq, Block.normal_eq, h.normalAll_eq]

/-- A step among nodes does not change what is left of them. -/
theorem Node.AllReduce.normalAll_eq {nodes nodes' : List Node} :
    Node.AllReduce nodes nodes' → Node.normalAll nodes = Node.normalAll nodes'
  | .incomplete h => by
    rw [Node.normalAll, Node.normal_condition, h]
    rfl
  | .childless (b := b) hplain h => by
    have hchildren : b.normal.children = [] := by rw [Block.children_normal, h, Node.normalAll]
    have hlength : b.normal.children.length ≤ 1 := by rw [hchildren]; exact Nat.zero_le 1
    rw [Node.normalAll, Node.normal, Block.unwrapped_eq_children (by simpa) hlength, hchildren,
      List.nil_append]
  | .onlyChild (b := b) (n := n) hplain h => by
    have hchildren : b.normal.children = n.normal := by
      rw [Block.children_normal, h, Node.normalAll, Node.normalAll, List.append_nil]
    have hlength : b.normal.children.length ≤ 1 := by
      rw [hchildren]
      exact n.length_normal_le
    rw [Node.normalAll, Node.normal, Block.unwrapped_eq_children (by simpa) hlength, hchildren,
      Node.normalAll]
  | .block h => by rw [Node.normalAll, Node.normalAll, Node.normal, Node.normal, h.normal_eq]
  | @Node.AllReduce.operand c operand' _ h => by
    have hnormal : c.normal = ({ c with operand := operand' } : Condition).normal := by
      rw [Condition.normal, Condition.normal, h.normal_eq]
    rw [Node.normalAll, Node.normalAll, Node.normal_condition, Node.normal_condition, hnormal]
    rfl
  | .later h => by rw [Node.normalAll, Node.normalAll, h.normalAll_eq]

/-- A step in an operand does not change what is left of it. -/
theorem Operand.Reduces.normal_eq {operand operand' : Operand} :
    operand.Reduces operand' → operand.normal = operand'.normal
  | .nested h => by rw [Operand.normal, Operand.normal, h.normal_eq]
  | .list h => by rw [Operand.normal_list, Operand.normal_list, h.normal_eq]

end

/-! ### Steps lead to what is left -/

private theorem Block.reduces_children {b : Block} {children' : List Node}
    (h : ReflTransGen Node.AllReduce b.children children') :
    ReflTransGen Block.Reduces b { b with children := children' } := by
  obtain ⟨id, logic, children, name, mustHold⟩ := b
  let f (nodes : List Node) : Block := ⟨id, logic, nodes, name, mustHold⟩
  exact ReflTransGen.lift f (fun nodes _ h ↦ Block.Reduces.children (b := f nodes) h) _ _ h

private theorem Node.reduces_later {rest rest' : List Node} (n : Node)
    (h : ReflTransGen Node.AllReduce rest rest') :
    ReflTransGen Node.AllReduce (n :: rest) (n :: rest') :=
  ReflTransGen.lift (n :: ·) (fun _ _ h ↦ Node.AllReduce.later h) _ _ h

private theorem Node.reduces_block {b b' : Block} (h : ReflTransGen Block.Reduces b b')
    (rest : List Node) :
    ReflTransGen Node.AllReduce (.block b :: rest) (.block b' :: rest) :=
  ReflTransGen.lift (.block · :: rest) (fun _ _ h ↦ Node.AllReduce.block h) _ _ h

private theorem Node.reduces_operand {c : Condition} {operand' : Operand}
    (h : ReflTransGen Operand.Reduces c.operand operand') (rest : List Node) :
    ReflTransGen Node.AllReduce (.condition c :: rest)
      (.condition { c with operand := operand' } :: rest) := by
  obtain ⟨id, field, operator, operand, switch⟩ := c
  let f (operand : Operand) : Condition := ⟨id, field, operator, operand, switch⟩
  exact ReflTransGen.lift (fun operand ↦ .condition (f operand) :: rest)
    (fun operand _ h ↦ Node.AllReduce.operand (c := f operand) h) _ _ h

private theorem Operand.reduces_list {d : ListCondition} {operand' : Operand}
    (h : ReflTransGen Operand.Reduces d.operand operand') :
    ReflTransGen Operand.Reduces (.list d) (.list { d with operand := operand' }) := by
  obtain ⟨field, operator, subField, operand, comparison, comparisonValue, switch⟩ := d
  let f (operand : Operand) : ListCondition :=
    ⟨field, operator, subField, operand, comparison, comparisonValue, switch⟩
  exact ReflTransGen.lift (fun operand ↦ Operand.list (f operand))
    (fun operand _ h ↦ Operand.Reduces.list (d := f operand) h) _ _ h

private theorem Block.reduces_unwrapped (b : Block) (rest : List Node) :
    ReflTransGen Node.AllReduce (.block b :: rest) (b.unwrapped ++ rest) := by
  obtain h | ⟨hplain, hlength, h⟩ := b.unwrapped_cases
  · rw [h]
    exact .refl
  · rw [h]
    match hc : b.children, hlength with
    | [], _ => exact .single (.childless hplain hc)
    | [n], _ => exact .single (.onlyChild hplain hc)

mutual

/-- A block is reduced to what is left of it. -/
theorem Block.reduces_normal : (b : Block) → ReflTransGen Block.Reduces b b.normal
  | ⟨_, _, children, _, _⟩ => Block.reduces_children (Node.reduces_normalAll children)

/-- Several nodes are reduced to what is left of them. -/
theorem Node.reduces_normalAll : (nodes : List Node) →
    ReflTransGen Node.AllReduce nodes (Node.normalAll nodes)
  | [] => .refl
  | n :: rest => (Node.reduces_later n (Node.reduces_normalAll rest)).trans
      (Node.reduces_normal n (Node.normalAll rest))

/-- A node in front of others is reduced to what is left of it. -/
theorem Node.reduces_normal : (n : Node) → (rest : List Node) →
    ReflTransGen Node.AllReduce (n :: rest) (n.normal ++ rest)
  | .block b, rest =>
    (Node.reduces_block (Block.reduces_normal b) rest).trans (b.normal.reduces_unwrapped rest)
  | .condition ⟨_, _, _, operand, _⟩, rest => by
    rw [Node.normal]
    split
    · exact Node.reduces_operand (Operand.reduces_normal operand) rest
    · next h => exact .single (.incomplete (Bool.eq_false_iff.mpr h))

/-- An operand is reduced to what is left of it. -/
theorem Operand.reduces_normal : (operand : Operand) →
    ReflTransGen Operand.Reduces operand operand.normal
  | .literal _ => .refl
  | .nested b =>
    ReflTransGen.lift Operand.nested (fun _ _ h ↦ Operand.Reduces.nested h) _ _
      (Block.reduces_normal b)
  | .list ⟨_, _, _, operand, _, _, _⟩ => Operand.reduces_list (Operand.reduces_normal operand)

end

/-! ### Steps make filters smaller -/

mutual

/-- A step makes a block smaller. -/
theorem Block.Reduces.sizeOf_lt {b b' : Block} : b.Reduces b' → sizeOf b' < sizeOf b
  | .children h => by
    have := h.sizeOf_lt
    cases b
    simp only [Block.mk.sizeOf_spec] at this ⊢
    omega

/-- A step makes a list of nodes smaller. -/
theorem Node.AllReduce.sizeOf_lt {nodes nodes' : List Node} :
    Node.AllReduce nodes nodes' → sizeOf nodes' < sizeOf nodes
  | .incomplete _ => by
    simp only [List.cons.sizeOf_spec]
    omega
  | .childless _ _ => by
    simp only [List.cons.sizeOf_spec]
    omega
  | .onlyChild (b := ⟨_, _, children, _, _⟩) (n := n) _ h => by
    have hchildren : children = [n] := h
    simp only [hchildren, List.cons.sizeOf_spec, Node.block.sizeOf_spec, Block.mk.sizeOf_spec]
    omega
  | .block h => by
    have := h.sizeOf_lt
    simp only [List.cons.sizeOf_spec, Node.block.sizeOf_spec]
    omega
  | .operand (c := ⟨_, _, _, _, _⟩) h => by
    have := h.sizeOf_lt
    simp only [List.cons.sizeOf_spec, Node.condition.sizeOf_spec, Condition.mk.sizeOf_spec]
      at this ⊢
    omega
  | .later h => by
    have := h.sizeOf_lt
    simp only [List.cons.sizeOf_spec]
    omega

/-- A step makes an operand smaller. -/
theorem Operand.Reduces.sizeOf_lt {operand operand' : Operand} :
    operand.Reduces operand' → sizeOf operand' < sizeOf operand
  | .nested h => by
    have := h.sizeOf_lt
    simp only [Operand.nested.sizeOf_spec]
    omega
  | .list (d := ⟨_, _, _, _, _, _, _⟩) h => by
    have := h.sizeOf_lt
    simp only [Operand.list.sizeOf_spec, ListCondition.mk.sizeOf_spec] at this ⊢
    omega

end

namespace Block

variable {b b' : Block}

/-- Steps do not change what is left of a block. -/
theorem normal_eq_of_reduces (h : ReflTransGen Block.Reduces b b') : b.normal = b'.normal := by
  induction h with
  | refl => rfl
  | tail _ h ih => exact ih.trans h.normal_eq

private theorem sizeOf_le_of_reduces (h : ReflTransGen Block.Reduces b b') :
    sizeOf b' ≤ sizeOf b := by
  induction h with
  | refl => exact Nat.le_refl _
  | tail _ h ih => exact Nat.le_trans (Nat.le_of_lt h.sizeOf_lt) ih

private theorem not_reduces_normal (b b' : Block) : ¬ b.normal.Reduces b' := by
  intro h
  -- a step would lead back to where it started, in a smaller block
  have hback : b'.normal = b.normal := by
    rw [← h.normal_eq, ← normal_eq_of_reduces b.reduces_normal]
  have hle : sizeOf b.normal ≤ sizeOf b' := hback ▸ sizeOf_le_of_reduces b'.reduces_normal
  exact absurd h.sizeOf_lt (Nat.not_lt.mpr hle)

/-- A block can be reduced to just one in which nothing is redundant. -/
theorem reducesTo_iff : b.ReducesTo b' ↔ b' = b.normal := by
  constructor
  · rintro ⟨h, hend⟩
    -- from the end no step leads on, so that what is left of it is the end itself
    rcases b'.reduces_normal.cases_head with heq | ⟨_, hstep, -⟩
    · rw [heq, normal_eq_of_reduces h]
    · exact absurd hstep (hend _)
  · rintro rfl
    exact ⟨b.reduces_normal, b.not_reduces_normal⟩

end Block
end FilterPipeline
