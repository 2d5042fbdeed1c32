import FilterPipeline.Compile.Compiler
import FilterPipeline.Proofs.CorrespondingFilters
import FilterPipeline.Proofs.ElementPredicates

/-!
# Filters around a condition

A filter with a spot for a condition is what stands in front of and behind that condition, root by
root and block by block. Main statements: every condition outside of negated named blocks stands in
a spot of its filter; what the condition is compiled to is all that the queries of the roots depend
on besides the projection; and what counts alike in a spot makes the same projection.
-/

namespace FilterPipeline

/-- A block with a place among its children. -/
structure Frame where
  id : String
  logic : Logic
  before : List Node
  after : List Node
  name : Option String
  mustHold : Bool

namespace Frame

/-- The block with a node in its place. -/
def fill (f : Frame) (n : Node) : Block where
  id := f.id
  logic := f.logic
  children := f.before ++ n :: f.after
  name := f.name
  mustHold := f.mustHold

/-- Whether the block is a negated named one, which its children do not matter for. -/
def isNegatedNamed (f : Frame) : Bool := (f.fill (.condition .empty)).isNegatedNamed

/-- What stands in a frame does not matter to whether it is a negated named block. -/
@[simp]
theorem isNegatedNamed_fill (f : Frame) (n : Node) :
    (f.fill n).isNegatedNamed = f.isNegatedNamed := rfl

/-- The children of a filled frame are those around the hole and what fills it. -/
@[simp]
theorem children_fill (f : Frame) (n : Node) : (f.fill n).children = f.before ++ n :: f.after := rfl

private theorem exists_fill_eq {b : Block} {n : Node} (h : n ∈ b.children) :
    ∃ f : Frame, f.fill n = b := by
  obtain ⟨id, logic, children, name, mustHold⟩ := b
  obtain ⟨before, after, rfl⟩ := List.append_of_mem h
  exact ⟨⟨id, logic, before, after, name, mustHold⟩, rfl⟩

/-- The block with further ones in its place, each in that of the one before, and a condition in the
place of the last. -/
def enclose (c : Condition) : Frame → List Frame → Block
  | f, [] => f.fill (.condition c)
  | f, inner :: frames => f.fill (.block (enclose c inner frames))

end Frame

/-- A filter with a place for a condition. -/
structure Spot where
  /-- The roots in front. -/
  before : List Block
  /-- The root with the place in it. -/
  root : Frame
  /-- The blocks between the root and the place, from the outside. -/
  inner : List Frame
  /-- The roots behind. -/
  after : List Block

namespace Spot

/-- The filter with a condition in its place. -/
def fill (s : Spot) (c : Condition) : List Block :=
  s.before ++ s.root.enclose c s.inner :: s.after

/-- The place is outside of negated named blocks. -/
def IsPlain (s : Spot) : Prop := ∀ f ∈ s.root :: s.inner, f.isNegatedNamed = false

/-- Whether a place is outside of negated named blocks is decided by the blocks around it. -/
instance (s : Spot) : Decidable s.IsPlain :=
  inferInstanceAs (Decidable (∀ f ∈ s.root :: s.inner, f.isNegatedNamed = false))

end Spot

section Occurrence

variable {c : Condition}

private theorem Frame.hasCondition_enclose : (f : Frame) → (frames : List Frame) →
    (∀ g ∈ f :: frames, g.isNegatedNamed = false) → (f.enclose c frames).HasCondition c
  | f, [], h => .here (h f List.mem_cons_self) (by simp [enclose])
  | f, inner :: frames, h => by
    rw [List.forall_mem_cons] at h
    exact .block h.1 (by simp [enclose]) (hasCondition_enclose inner frames h.2)

private theorem Block.HasCondition.exists_enclose {b : Block} (h : b.HasCondition c) :
    ∃ (f : Frame) (frames : List Frame), (∀ g ∈ f :: frames, g.isNegatedNamed = false) ∧
      f.enclose c frames = b := by
  induction h with
  | here hplain hc =>
    obtain ⟨f, rfl⟩ := Frame.exists_fill_eq hc
    exact ⟨f, [], by simpa using hplain, rfl⟩
  | block hplain hinner _ ih =>
    obtain ⟨g, frames, hframes, rfl⟩ := ih
    obtain ⟨f, rfl⟩ := Frame.exists_fill_eq hinner
    exact ⟨f, g :: frames, List.forall_mem_cons.mpr ⟨hplain, hframes⟩, rfl⟩

/-- The conditions in the spots of a filter are those that stand in a root outside of negated named
blocks. -/
theorem Spot.exists_fill_eq_iff {blocks : List Block} :
    (∃ s : Spot, s.IsPlain ∧ s.fill c = blocks) ↔ ∃ b ∈ blocks, b.HasCondition c := by
  constructor
  · rintro ⟨s, hplain, rfl⟩
    exact ⟨s.root.enclose c s.inner, by simp [fill], s.root.hasCondition_enclose s.inner hplain⟩
  · rintro ⟨b, hb, hc⟩
    obtain ⟨before, after, rfl⟩ := List.append_of_mem hb
    obtain ⟨root, inner, hplain, rfl⟩ := hc.exists_enclose
    exact ⟨⟨before, root, inner, after⟩, hplain, rfl⟩

end Occurrence

namespace Generator

variable (g : Generator) (p : Projection)

/-- What a block is compiled to when the node in its place is compiled to a query. -/
def frameQuery (f : Frame) (q : Option Json) : Option Json :=
  f.logic.combine (g.nodeQueries p f.before ++ (q.toList ++ g.nodeQueries p f.after))

/-- What the roots of a filter are compiled to when the condition in its place is compiled to a
query. -/
def spotQueries (s : Spot) (q : Option Json) : List Json :=
  s.before.filterMap (g.blockQuery p) ++
    (((s.root :: s.inner).foldr (g.frameQuery p) q).toList ++ s.after.filterMap (g.blockQuery p))

private theorem blockQuery_enclose (c : Condition) : (f : Frame) → (frames : List Frame) →
    (∀ g ∈ f :: frames, g.isNegatedNamed = false) →
    g.blockQuery p (f.enclose c frames) = (f :: frames).foldr (g.frameQuery p)
      (g.conditionQuery p c (g.operandExpr .document c))
  | f, [], h => by
    have hplain : (f.fill (.condition c)).isNegatedNamed = false := h f List.mem_cons_self
    rw [Frame.enclose, g.blockQuery_of_plain p hplain, Frame.children_fill, nodeQueries_append,
      nodeQueries_condition]
    rfl
  | f, inner :: frames, h => by
    rw [List.forall_mem_cons] at h
    have hplain : (f.fill (.block (inner.enclose c frames))).isNegatedNamed = false := h.1
    rw [Frame.enclose, g.blockQuery_of_plain p hplain, Frame.children_fill, nodeQueries_append,
      nodeQueries_block, blockQuery_enclose c inner frames h.2]
    rfl

/-- The roots of a filter are compiled around the condition in its place. -/
theorem filterMap_blockQuery_fill {s : Spot} (h : s.IsPlain) (c : Condition) :
    (s.fill c).filterMap (g.blockQuery p) =
      g.spotQueries p s (g.conditionQuery p c (g.operandExpr .document c)) := by
  rw [Spot.fill, List.filterMap_append, List.filterMap_cons,
    g.blockQuery_enclose p c s.root s.inner h, spotQueries]
  cases (s.root :: s.inner).foldr (g.frameQuery p)
    (g.conditionQuery p c (g.operandExpr .document c)) <;> rfl

end Generator

/-! ### Usage -/

variable {r : Resolver} {c c' : Condition}

/-- Conditions count alike place by place in a list and itself. -/
theorem Resolver.CountAlike.refl (r : Resolver) (conditions : List Condition) :
    List.Forall₂ r.CountAlike conditions conditions :=
  List.forall₂_same.mpr fun _ _ ↦ ⟨rfl, rfl, rfl, rfl, rfl⟩

private theorem Node.forall₂_countAlike_append (before : List Node) {nodes nodes' : List Node}
    (h : List.Forall₂ r.CountAlike (Node.plainConditions nodes) (Node.plainConditions nodes')) :
    List.Forall₂ r.CountAlike (Node.plainConditions (before ++ nodes))
      (Node.plainConditions (before ++ nodes')) := by
  rw [Node.plainConditions_append, Node.plainConditions_append]
  exact List.rel_append (Resolver.CountAlike.refl r _) h

namespace Frame

private theorem forall₂_countAlike_enclose (hc : r.CountAlike c c')
    (hcomplete : c.isComplete = c'.isComplete) : (f : Frame) → (frames : List Frame) →
    (∀ g ∈ f :: frames, g.isNegatedNamed = false) →
    List.Forall₂ r.CountAlike (f.enclose c frames).plainConditions
      (f.enclose c' frames).plainConditions
  | f, [], h => by
    have hplain (n : Node) : (f.fill n).isNegatedNamed = false := h f List.mem_cons_self
    rw [enclose, enclose, Block.plainConditions_of_plain (hplain _),
      Block.plainConditions_of_plain (hplain _), children_fill, children_fill]
    apply Node.forall₂_countAlike_append
    rw [Node.plainConditions, Node.plainConditions, hcomplete]
    split
    · exact .cons hc (Resolver.CountAlike.refl r _)
    · exact Resolver.CountAlike.refl r _
  | f, inner :: frames, h => by
    have hplain (n : Node) : (f.fill n).isNegatedNamed = false := h f List.mem_cons_self
    rw [enclose, enclose, Block.plainConditions_of_plain (hplain _),
      Block.plainConditions_of_plain (hplain _), children_fill, children_fill]
    apply Node.forall₂_countAlike_append
    exact List.rel_append
      (forall₂_countAlike_enclose hc hcomplete inner frames (List.forall_mem_cons.mp h).2)
      (Resolver.CountAlike.refl r _)

private theorem negatedBlocks_enclose (c c' : Condition) : (f : Frame) → (frames : List Frame) →
    (∀ g ∈ f :: frames, g.isNegatedNamed = false) →
    (f.enclose c frames).negatedBlocks = (f.enclose c' frames).negatedBlocks
  | f, [], h => by
    have hplain (n : Node) : (f.fill n).isNegatedNamed = false := h f List.mem_cons_self
    rw [enclose, enclose, Block.negatedBlocks_of_plain (hplain _),
      Block.negatedBlocks_of_plain (hplain _), children_fill, children_fill,
      Node.negatedBlocks_append, Node.negatedBlocks_append]
    rfl
  | f, inner :: frames, h => by
    have hplain (n : Node) : (f.fill n).isNegatedNamed = false := h f List.mem_cons_self
    rw [enclose, enclose, Block.negatedBlocks_of_plain (hplain _),
      Block.negatedBlocks_of_plain (hplain _), children_fill, children_fill,
      Node.negatedBlocks_append, Node.negatedBlocks_append, Node.negatedBlocks, Node.negatedBlocks,
      negatedBlocks_enclose c c' inner frames (List.forall_mem_cons.mp h).2]

end Frame

namespace Spot

variable {s : Spot}

private theorem ofBlocks_fill (hs : s.IsPlain) (hc : r.CountAlike c c')
    (hcomplete : c.isComplete = c'.isComplete) :
    Usage.ofBlocks r (s.fill c) = Usage.ofBlocks r (s.fill c') := by
  have hconditions : List.Forall₂ r.CountAlike ((s.fill c).flatMap Block.plainConditions)
      ((s.fill c').flatMap Block.plainConditions) := by
    simp only [fill, List.flatMap_append, List.flatMap_cons]
    exact List.rel_append (Resolver.CountAlike.refl r _) (List.rel_append
      (s.root.forall₂_countAlike_enclose hc hcomplete s.inner hs) (Resolver.CountAlike.refl r _))
  have hblocks : (s.fill c).flatMap Block.negatedBlocks =
      (s.fill c').flatMap Block.negatedBlocks := by
    simp only [fill, List.flatMap_append, List.flatMap_cons]
    rw [s.root.negatedBlocks_enclose c c' s.inner hs]
  obtain ⟨hfields, hvariables, hlists⟩ := Usage.ofBlocks_eq_of_countAlike hconditions
  rw [Usage.mk.injEq]
  refine ⟨hfields, hvariables, hlists, ?_⟩
  simp only [Usage.ofBlocks, hblocks]

end Spot

namespace Context

variable {ctx : Context} {s : Spot}

/-- Filters with conditions in one place that count alike have the same projection. -/
theorem projection_fill (hs : s.IsPlain) (hc : ctx.resolver.CountAlike c c')
    (hcomplete : c.isComplete = c'.isComplete) :
    ctx.projection (s.fill c) = ctx.projection (s.fill c') := by
  rw [projection, projection, usage, usage, Spot.ofBlocks_fill hs hc hcomplete]

end Context
end FilterPipeline
