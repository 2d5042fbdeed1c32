import FilterPipeline.Compile.Compiler
import FilterPipeline.Proofs.ProjectionKeys

/-!
# What holds of all that blocks are compiled to

Blocks are compiled by one walk to expressions and by another to queries. What holds of the
compiled conditions, and is kept by negations and combinations, holds of the compiled blocks, and of
the match that the queries of roots are joined to.
-/

namespace FilterPipeline

open Fragment

/-- The combination of several parts is one of them or has them all as its operands. -/
theorem Logic.combine_forall {Q : Json → Prop} {logic : Logic} {parts : List Json} {e : Json}
    (hcombine : Q (.single logic.key (.arr parts))) (h : ∀ part ∈ parts, Q part)
    (he : logic.combine parts = some e) : Q e := by
  unfold combine at he
  split at he
  · cases he
  · cases he
    exact h _ List.mem_cons_self
  · cases he
    exact hcombine

namespace Generator

variable {g : Generator} {Q : Json → Prop} {C : Condition → Prop}

/-- Only complete conditions are compiled to expressions. -/
theorem isComplete_of_conditionExpr {scope : Scope} {c : Condition} {element : Option Json}
    {e : Json} (he : g.conditionExpr scope c element = some e) : c.isComplete = true := by
  simp only [conditionExpr, Option.bind_eq_bind, Option.bind_eq_some_iff] at he
  obtain ⟨field, hf, op, ho, -⟩ := he
  simp [Condition.isComplete, hf, ho]

/-- Only complete conditions are compiled to queries. -/
theorem isComplete_of_conditionQuery {p : Projection} {c : Condition} {element : Option Json}
    {q : Json} (hq : g.conditionQuery p c element = some q) : c.isComplete = true := by
  simp only [conditionQuery, Option.bind_eq_bind, Option.bind_eq_some_iff] at hq
  obtain ⟨field, hf, op, ho, -⟩ := hq
  simp [Condition.isComplete, hf, ho]

/-- What is kept by negation and combination and holds of what conditions with a property are
compiled to in the scopes of some kind, which element predicates do not leave. -/
structure ExprInvariant (g : Generator) (S : Scope → Prop) (C : Condition → Prop)
    (Q : Json → Prop) : Prop where
  scope : ∀ array, S (.element array)
  negate : ∀ e, Q e → Q (negateExpr e)
  combine : ∀ (logic : Logic) (parts : List Json), (∀ e ∈ parts, Q e) →
    Q (.single logic.key (.arr parts))
  condition : ∀ scope c element e, S scope → C c → (∀ p, element = some p → Q p) →
    g.conditionExpr scope c element = some e → Q e

namespace ExprInvariant

variable {S : Scope → Prop} (I : g.ExprInvariant S C Q)

include I

mutual

/-- An invariant holds of the expression of a block. -/
theorem block {scope : Scope} (hs : S scope) : (b : Block) →
    (∀ c ∈ b.elementConditions, C c) → ∀ e, g.blockExpr scope b = some e → Q e
  | ⟨_, logic, children, _, _⟩, h, e, he => by
    simp only [blockExpr] at he
    obtain ⟨part, hpart, rfl⟩ := Option.map_eq_some_iff.mp he
    have hparts := nodes hs children h
    have := Logic.combine_forall (I.combine logic _ hparts) hparts hpart
    split
    · exact I.negate part this
    · exact this

/-- An invariant holds of the expressions of nodes. -/
theorem nodes {scope : Scope} (hs : S scope) : (nodes : List Node) →
    (∀ c ∈ Node.elementConditionsAll nodes, C c) → ∀ e ∈ g.nodeExprs scope nodes, Q e
  | [], _, e, he => by cases he
  | .block b :: rest, h, e, he => by
    rw [nodeExprs_cons, List.mem_append] at he
    rcases he with he | he
    · simp only [nodeExpr] at he
      exact block hs b (fun c hc ↦ h c (List.mem_append_left _ hc)) e (Option.mem_toList.mp he)
    · exact nodes hs rest (fun c hc ↦ h c (List.mem_append_right _ hc)) e he
  | .condition ⟨id, field, op, operand, switch⟩ :: rest, h, e, he => by
    rw [nodeExprs_cons, List.mem_append, nodeExpr_condition] at he
    rcases he with he | he
    · have he := Option.mem_toList.mp he
      have hconditions : Node.elementConditions (.condition ⟨id, field, op, operand, switch⟩) =
          ⟨id, field, op, operand, switch⟩ :: operand.elementConditions := by
        rw [Node.elementConditions, if_pos (isComplete_of_conditionExpr he)]
      have h' : ∀ c ∈ Node.elementConditions (.condition ⟨id, field, op, operand, switch⟩), C c :=
        fun c hc ↦ h c (List.mem_append_left _ hc)
      rw [hconditions] at h'
      refine I.condition scope _ _ e hs (h' _ List.mem_cons_self) (fun p hp ↦ ?_) he
      simp only [operandExpr] at hp
      split at hp
      · exact element operand (fun c hc ↦ h' c (List.mem_cons_of_mem _ hc)) p hp
      · cases hp
    · exact nodes hs rest (fun c hc ↦ h c (List.mem_append_right _ hc)) e he

/-- An invariant holds of an element predicate, whatever the scope around it. -/
theorem element {scope : Scope} {field : String} : (operand : Operand) →
    (∀ c ∈ operand.elementConditions, C c) →
    ∀ e, g.elementExpr scope field operand = some e → Q e
  | .literal _, _, e, he => by cases he
  | .nested b, h, e, he => by
    simp only [elementExpr] at he
    exact block (I.scope _) b h e he
  | .list ⟨_, _, _, operand, _, _, _⟩, h, e, he => by
    cases operand with
    | nested b =>
      simp only [elementExpr] at he
      exact block (I.scope _) b h e he
    | literal v => cases he
    | list d => cases he

end

end ExprInvariant

/-- What is kept by combination and holds of the fields of negated blocks and of what conditions
with a property are compiled to in the match. -/
structure QueryInvariant (g : Generator) (p : Projection) (C : Condition → Prop)
    (Q : Json → Prop) : Prop where
  negated : ∀ n ∈ p.blocks, Q (.single n.1 (.bool false))
  combine : ∀ (logic : Logic) (parts : List Json), (∀ q ∈ parts, Q q) →
    Q (.single logic.key (.arr parts))
  condition : ∀ c q, C c → g.conditionQuery p c (g.operandExpr .document c) = some q → Q q

namespace QueryInvariant

variable {p : Projection} (I : g.QueryInvariant p C Q)

include I

mutual

/-- An invariant holds of the query of a block. -/
theorem block : (b : Block) → (∀ c ∈ b.plainConditions, C c) →
    ∀ q, g.blockQuery p b = some q → Q q
  | ⟨_, logic, children, _, _⟩, h, q, hq => by
    simp only [blockQuery] at hq
    split at hq
    · obtain ⟨n, hn, rfl⟩ := Option.map_eq_some_iff.mp hq
      exact I.negated n (List.mem_of_find?_eq_some hn)
    · next hneg =>
      have hparts := nodes children (by rwa [Block.plainConditions, if_neg hneg] at h)
      exact Logic.combine_forall (I.combine logic _ hparts) hparts hq

/-- An invariant holds of the queries of nodes. -/
theorem nodes : (nodes : List Node) → (∀ c ∈ Node.plainConditions nodes, C c) →
    ∀ q ∈ g.nodeQueries p nodes, Q q
  | [], _, q, hq => by cases hq
  | .block b :: rest, h, q, hq => by
    rw [nodeQueries_block, List.mem_append] at hq
    rcases hq with hq | hq
    · exact block b (fun c hc ↦ h c (List.mem_append_left _ hc)) q (Option.mem_toList.mp hq)
    · exact nodes rest (fun c hc ↦ h c (List.mem_append_right _ hc)) q hq
  | .condition c :: rest, h, q, hq => by
    simp only [Node.plainConditions] at h
    rw [nodeQueries_condition, List.mem_append] at hq
    rcases hq with hq | hq
    · have hq := Option.mem_toList.mp hq
      rw [if_pos (isComplete_of_conditionQuery hq)] at h
      exact I.condition c q (h c List.mem_cons_self) hq
    · refine nodes rest (fun c' hc ↦ ?_) q hq
      split at h
      · exact h c' (List.mem_cons_of_mem _ hc)
      · exact h c' hc

end

end QueryInvariant

end Generator

/-- What holds of a query when it holds of each member by itself, and of a conjunction just when it
holds of the parts. -/
structure MemberInvariant (Q : Json → Prop) : Prop where
  member : ∀ members : Members, Q (.obj members) → ∀ m ∈ members, Q (.single m.1 m.2)
  and_iff : ∀ items, Q (.single "$and" (.arr items)) ↔ ∀ q ∈ items, Q q

namespace MemberInvariant

variable {Q : Json → Prop} (I : MemberInvariant Q) {target : Members}

include I

private theorem mergeMember {key : String} {v : Json} (ht : ∀ m ∈ target, Q (.single m.1 m.2))
    (hv : Q (.single key v)) : ∀ m ∈ mergeMember target key v, Q (.single m.1 m.2) := by
  have hinsert : ∀ k w, Q (.single k w) → ∀ m ∈ target.insert k w, Q (.single m.1 m.2) := by
    intro k w hw m hm
    rcases Members.mem_of_mem_insert hm with h | h
    · cases h
      exact hw
    · exact ht m h
  unfold FilterPipeline.mergeMember
  split
  · exact hinsert key v hv
  · extract_lets moved
    have hmoved : ∀ q ∈ moved, Q q := by
      simp only [moved]
      split
      · exact (I.and_iff _).mp hv
      · exact List.forall_mem_singleton.mpr hv
    split
    · exact hinsert _ _ ((I.and_iff _).mpr hmoved)
    · next items hget =>
      obtain ⟨before, after, htarget, -⟩ := List.lookup_eq_some_iff.mp hget
      have hitems := (I.and_iff items).mp (ht ("$and", .arr items) (by simp [htarget]))
      exact hinsert _ _ ((I.and_iff _).mpr (List.forall_mem_append.mpr ⟨hitems, hmoved⟩))
    · exact ht

private theorem mergeRoot {q : Json} (ht : ∀ m ∈ target, Q (.single m.1 m.2)) (hq : Q q) :
    ∀ m ∈ mergeRoot target q, Q (.single m.1 m.2) := by
  unfold FilterPipeline.mergeRoot
  split
  · next members =>
    exact List.foldlRecOn (motive := fun target : Members ↦ ∀ m ∈ target, Q (.single m.1 m.2))
      members _ ht fun target ht m hm ↦ I.mergeMember ht (I.member members hq m hm)
  · exact ht

/-- An invariant holds of the members of the match when it holds of the queries of all roots. -/
theorem filterMembers {ctx : Context} {blocks : List Block}
    (h : ∀ b ∈ blocks, ∀ q, ctx.generator.blockQuery (ctx.projection blocks) b = some q → Q q) :
    ∀ m ∈ ctx.filterMembers blocks, Q (.single m.1 m.2) := by
  refine List.foldlRecOn (motive := fun target : Members ↦ ∀ m ∈ target, Q (.single m.1 m.2)) _ _
    (List.forall_mem_nil _) fun target ht q hq ↦ ?_
  obtain ⟨b, hb, hq⟩ := List.mem_filterMap.mp hq
  exact I.mergeRoot ht (h b hb q hq)

end MemberInvariant
end FilterPipeline
