import FilterPipeline.Proofs.Traversal

/-!
# Conditions outside of element predicates

A negated named block is compiled in the scope that it stands in, at any depth of blocks, and only
element predicates have a scope of their own. Main statements: the conditions of a block that keep
its scope are conditions of the filter, and what holds of all that they are compiled to, and is kept
by negations and combinations, holds of what the block is compiled to.
-/

namespace FilterPipeline

open Fragment

mutual

/-- The complete conditions of a block outside of element predicates. -/
def Block.ownConditions : Block → List Condition
  | ⟨_, _, children, _, _⟩ => Node.ownConditions children

/-- The complete conditions of several nodes outside of element predicates. -/
def Node.ownConditions : List Node → List Condition
  | [] => []
  | .block b :: rest => Block.ownConditions b ++ Node.ownConditions rest
  | .condition c :: rest =>
    if c.isComplete then c :: Node.ownConditions rest else Node.ownConditions rest

end

mutual

/-- The conditions of a block outside of element predicates are conditions of the block, with all
that stand in their element predicates. -/
theorem Block.ownConditions_subset {c : Condition} : (b : Block) → c ∈ b.ownConditions →
    c :: c.operand.elementConditions ⊆ b.elementConditions
  | ⟨_, _, children, _, _⟩, hc => Node.ownConditions_subset children hc

/-- The conditions of nodes outside of element predicates are conditions of the nodes, with all that
stand in their element predicates. -/
theorem Node.ownConditions_subset {c : Condition} : (nodes : List Node) →
    c ∈ Node.ownConditions nodes →
    c :: c.operand.elementConditions ⊆ Node.elementConditionsAll nodes
  | [], hc => by cases hc
  | .block b :: rest, hc => by
    rw [Node.elementConditionsAll]
    rcases List.mem_append.mp hc with hc | hc
    · exact List.subset_append_of_subset_left _ (Block.ownConditions_subset b hc)
    · exact List.subset_append_of_subset_right _ (Node.ownConditions_subset rest hc)
  | .condition c' :: rest, hc => by
    rw [Node.ownConditions] at hc
    rw [Node.elementConditionsAll]
    split at hc
    · next hcomplete =>
      rcases List.mem_cons.mp hc with rfl | hc
      · cases c
        rw [Node.elementConditions, if_pos hcomplete]
        exact List.subset_append_left _ _
      · exact List.subset_append_of_subset_right _ (Node.ownConditions_subset rest hc)
    · exact List.subset_append_of_subset_right _ (Node.ownConditions_subset rest hc)

end

mutual

/-- The conditions outside of negated named blocks are outside of element predicates. -/
theorem Block.plainConditions_subset_own : (b : Block) → b.plainConditions ⊆ b.ownConditions
  | ⟨_, _, children, _, _⟩ => by
    rw [Block.plainConditions, Block.ownConditions]
    split
    · exact List.nil_subset _
    · exact Node.plainConditions_subset_own children

/-- The conditions of nodes outside of negated named blocks are outside of element predicates. -/
theorem Node.plainConditions_subset_own : (nodes : List Node) →
    Node.plainConditions nodes ⊆ Node.ownConditions nodes
  | [] => List.Subset.refl _
  | .block b :: rest => by
    rw [Node.plainConditions, Node.ownConditions]
    exact List.append_subset.mpr
      ⟨List.subset_append_of_subset_left _ (Block.plainConditions_subset_own b),
        List.subset_append_of_subset_right _ (Node.plainConditions_subset_own rest)⟩
  | .condition c :: rest => by
    rw [Node.plainConditions, Node.ownConditions]
    split
    · exact List.cons_subset_cons c (Node.plainConditions_subset_own rest)
    · exact Node.plainConditions_subset_own rest

end

mutual

/-- The conditions of negated named blocks outside of element predicates are among those of the
block that they stand in. -/
theorem Block.ownConditions_of_negated {a : Block} : (b : Block) → a ∈ b.negatedBlocks →
    a.ownConditions ⊆ b.ownConditions
  | ⟨_, _, children, _, _⟩, ha => by
    rw [Block.negatedBlocks] at ha
    split at ha
    · rw [List.mem_singleton.mp ha]
      exact List.Subset.refl _
    · exact Node.ownConditions_of_negated children ha

/-- The conditions of negated named blocks outside of element predicates are among those of the
nodes that they stand among. -/
theorem Node.ownConditions_of_negated {a : Block} : (nodes : List Node) →
    a ∈ Node.negatedBlocks nodes → a.ownConditions ⊆ Node.ownConditions nodes
  | [], ha => by cases ha
  | .block b :: rest, ha => by
    rw [Node.ownConditions]
    rcases List.mem_append.mp ha with ha | ha
    · exact List.subset_append_of_subset_left _ (Block.ownConditions_of_negated b ha)
    · exact List.subset_append_of_subset_right _ (Node.ownConditions_of_negated rest ha)
  | .condition c :: rest, ha => by
    rw [Node.ownConditions]
    have hrest := Node.ownConditions_of_negated rest ha
    split
    · exact List.subset_cons_of_subset c hrest
    · exact hrest

end

namespace Generator

/-- What is kept by negation and combination and holds of what conditions with a property are
compiled to in a scope. -/
structure ScopeInvariant (g : Generator) (scope : Scope) (C : Condition → Prop)
    (Q : Json → Prop) : Prop where
  negate : ∀ e, Q e → Q (negateExpr e)
  combine : ∀ (logic : Logic) (parts : List Json), (∀ e ∈ parts, Q e) →
    Q (.single logic.key (.arr parts))
  condition : ∀ c e, C c → g.conditionExpr scope c (g.operandExpr scope c) = some e → Q e

namespace ScopeInvariant

variable {g : Generator} {scope : Scope} {C : Condition → Prop} {Q : Json → Prop}
  (I : g.ScopeInvariant scope C Q)

include I

mutual

private theorem block : (b : Block) → (∀ c ∈ b.ownConditions, C c) →
    ∀ e, g.blockExpr scope b = some e → Q e
  | ⟨_, logic, children, _, _⟩, h, e, he => by
    simp only [blockExpr] at he
    obtain ⟨part, hpart, rfl⟩ := Option.map_eq_some_iff.mp he
    have hparts := nodes children h
    have := Logic.combine_forall (I.combine logic _ hparts) hparts hpart
    split
    · exact I.negate part this
    · exact this

private theorem nodes : (nodes : List Node) → (∀ c ∈ Node.ownConditions nodes, C c) →
    ∀ e ∈ g.nodeExprs scope nodes, Q e
  | [], _, e, he => by cases he
  | .block b :: rest, h, e, he => by
    rw [nodeExprs_cons, List.mem_append] at he
    rcases he with he | he
    · simp only [nodeExpr] at he
      exact block b (fun c hc ↦ h c (List.mem_append_left _ hc)) e (Option.mem_toList.mp he)
    · exact nodes rest (fun c hc ↦ h c (List.mem_append_right _ hc)) e he
  | .condition c :: rest, h, e, he => by
    rw [Node.ownConditions] at h
    rw [nodeExprs_cons, List.mem_append, nodeExpr_condition] at he
    rcases he with he | he
    · have he := Option.mem_toList.mp he
      rw [if_pos (isComplete_of_conditionExpr he)] at h
      exact I.condition c e (h c List.mem_cons_self) he
    · refine nodes rest (fun c' hc ↦ h c' ?_) e he
      split
      · exact List.mem_cons_of_mem _ hc
      · exact hc

end

/-- An invariant holds of the expression of the children of a block. -/
theorem children (b : Block) (h : ∀ c ∈ b.ownConditions, C c) {e : Json}
    (he : g.childrenExpr scope b = some e) : Q e := by
  obtain ⟨_, logic, children, _, _⟩ := b
  have hparts : ∀ part ∈ g.nodeExprs scope children, Q part := I.nodes children h
  exact Logic.combine_forall (I.combine logic _ hparts) hparts he

end ScopeInvariant
end Generator
end FilterPipeline
