import FilterPipeline.Proofs.NegatedBlocks
import FilterPipeline.Proofs.ProjectionCoverage
import FilterPipeline.Proofs.ReducedConditions

/-!
# Redundant nodes do not matter

Negated named blocks are found by comparison, so equal ones have to stay equal and others have to
stay apart when a filter is reduced, which they do where no two have the same name. Main statement:
a filter and what it is reduced to have the same pipeline.
-/

namespace FilterPipeline

open Relation

/-! ### Equal blocks -/

/-- Lists of nodes are equal when they have equal nodes in equal places. -/
theorem Node.sameAll_iff_forall₂ {nodes nodes' : List Node} : Node.sameAll nodes nodes' = true ↔
    List.Forall₂ (fun n n' ↦ n.same n' = true) nodes nodes' := by
  induction nodes generalizing nodes' with
  | nil => cases nodes' <;> simp [sameAll]
  | cons n nodes ih =>
    cases nodes' with
    | nil => simp [sameAll]
    | cons n' nodes' => rw [sameAll, Bool.and_eq_true, List.forall₂_cons, ih]

namespace Block

variable {a b : Block}

/-- Equal blocks have equal children, and all their other parts in common. -/
theorem same_parts (h : a.same b = true) : a.id = b.id ∧ a.logic = b.logic ∧
    Node.sameAll a.children b.children = true ∧ a.name = b.name ∧ a.mustHold = b.mustHold := by
  cases a
  cases b
  simpa [Block.same, and_assoc] using h

private theorem isNegatedNamed_eq_of_same (h : a.same b = true) :
    a.isNegatedNamed = b.isNegatedNamed := by
  obtain ⟨-, -, -, hname, hhold⟩ := same_parts h
  rw [isNegatedNamed, isNegatedNamed, isNamed, isNamed, hname, hhold]

private theorem materializedName?_eq_of_same (h : a.same b = true) :
    a.materializedName? = b.materializedName? := by
  obtain ⟨-, -, -, hname, -⟩ := same_parts h
  rw [materializedName?, materializedName?, isNamed, isNamed, hname]

private theorem sameAll_unwrapped (h : a.same b = true) :
    Node.sameAll a.unwrapped b.unwrapped = true := by
  obtain ⟨-, -, hchildren, -, -⟩ := same_parts h
  have hlength := (Node.sameAll_iff_forall₂.mp hchildren).length_eq
  have hnegated := isNegatedNamed_eq_of_same h
  obtain ha | ⟨hplain, hle, ha⟩ := a.unwrapped_cases
  · obtain hb | ⟨hplain, hle, hb⟩ := b.unwrapped_cases
    · rw [ha, hb]
      simp [Node.sameAll, Node.same, h]
    · rw [hb, unwrapped_eq_children (hnegated.trans hplain) (hlength ▸ hle)]
      exact hchildren
  · rw [ha, unwrapped_eq_children (hnegated.symm.trans hplain) (hlength ▸ hle)]
    exact hchildren

end Block

mutual

private theorem Block.same_normal : (a b : Block) → a.same b = true → a.normal.same b.normal = true
  | ⟨_, _, children, _, _⟩, ⟨_, _, children', _, _⟩, h => by
    simp only [Block.same, Bool.and_eq_true] at h
    obtain ⟨⟨⟨⟨hid, hlogic⟩, hchildren⟩, hname⟩, hhold⟩ := h
    simp only [Block.normal, Block.same, Bool.and_eq_true]
    exact ⟨⟨⟨⟨hid, hlogic⟩, Node.sameAll_normalAll children children' hchildren⟩, hname⟩, hhold⟩

private theorem Node.sameAll_normalAll :
    (nodes nodes' : List Node) → Node.sameAll nodes nodes' = true →
    Node.sameAll (Node.normalAll nodes) (Node.normalAll nodes') = true
  | [], [], h => h
  | [], _ :: _, h | _ :: _, [], h => by simp [Node.sameAll] at h
  | n :: nodes, n' :: nodes', h => by
    rw [Node.sameAll, Bool.and_eq_true] at h
    rw [Node.normalAll, Node.normalAll, Node.sameAll_iff_forall₂]
    exact List.rel_append (Node.sameAll_iff_forall₂.mp (Node.sameAll_normal n n' h.1))
      (Node.sameAll_iff_forall₂.mp (Node.sameAll_normalAll nodes nodes' h.2))

private theorem Node.sameAll_normal : (n n' : Node) → n.same n' = true →
    Node.sameAll n.normal n'.normal = true
  | .block a, .block b, h => by
    rw [Node.same] at h
    exact Block.sameAll_unwrapped (Block.same_normal a b h)
  | .block _, .condition _, h | .condition _, .block _, h => by simp [Node.same] at h
  | .condition ⟨id, field, operator, operand, switch⟩, .condition ⟨_, _, _, operand', _⟩, h => by
    simp only [Node.same, Condition.same, Bool.and_eq_true, beq_iff_eq] at h
    obtain ⟨⟨⟨⟨rfl, rfl⟩, rfl⟩, hoperand⟩, rfl⟩ := h
    have hcomplete : (⟨id, field, operator, operand, switch⟩ : Condition).isComplete =
      (⟨id, field, operator, operand', switch⟩ : Condition).isComplete := rfl
    rw [Node.normal, Node.normal, hcomplete]
    split
    · simp [Node.sameAll, Node.same, Condition.same, Operand.same_normal operand operand' hoperand]
    · rw [Node.sameAll]

private theorem Operand.same_normal :
    (a b : Operand) → a.same b = true → a.normal.same b.normal = true
  | .literal _, .literal _, h => h
  | .literal _, .nested _, h | .literal _, .list _, h | .nested _, .literal _, h
  | .nested _, .list _, h | .list _, .literal _, h | .list _, .nested _, h => by
    simp [Operand.same] at h
  | .nested a, .nested b, h => by
    rw [Operand.same] at h
    rw [Operand.normal, Operand.normal, Operand.same]
    exact Block.same_normal a b h
  | .list ⟨_, _, _, operand, _, value, _⟩, .list ⟨_, _, _, operand', _, value', _⟩, h => by
    have hnormal : operand.same operand' = true → operand.normal.same operand'.normal = true :=
      Operand.same_normal operand operand'
    cases value <;> cases value' <;>
      simp only [Operand.normal, Operand.same, ListCondition.same, Bool.and_eq_true] at h ⊢ <;>
      tauto

end

/-! ### Pipelines -/

/-- Blocks that have the same name are equal. A block equals itself, too, as those do in which all
numbers are finite. -/
def Block.DifferInNames (blocks : List Block) : Prop :=
  ∀ a ∈ blocks, ∀ b ∈ blocks, a.materializedName? = b.materializedName? → a.same b = true

/-- Whether equal names are those of equal blocks is decided pair by pair. -/
instance (blocks : List Block) : Decidable (Block.DifferInNames blocks) :=
  inferInstanceAs (Decidable (∀ a ∈ blocks, ∀ b ∈ blocks,
    a.materializedName? = b.materializedName? → a.same b = true))

/-- Where different blocks differ in their names, those that are left of them are equal just when
they are. -/
theorem Block.DifferInNames.same_normal_eq {blocks : List Block} (h : Block.DifferInNames blocks)
    {a b : Block} (ha : a ∈ blocks) (hb : b ∈ blocks) : a.normal.same b.normal = a.same b := by
  rw [Bool.eq_iff_iff]
  constructor
  · intro hsame
    have hname := Block.materializedName?_eq_of_same hsame
    rw [Block.materializedName?_normal, Block.materializedName?_normal] at hname
    exact h a ha b hb hname
  · exact Block.same_normal a b

/-- A named block with nothing redundant below it. -/
def Block.normalNamed (n : String × Block) : String × Block := (n.1, n.2.normal)

namespace Usage

variable {blocks : List Block} (hnames : Block.DifferInNames blocks)

include hnames

private theorem register_normal {done : List (String × Block)} (hdone : ∀ n ∈ done, n.2 ∈ blocks)
    {b : Block} (hb : b ∈ blocks) :
    register (done.map Block.normalNamed) b.normal = (register done b).map Block.normalNamed := by
  have hany : (done.map Block.normalNamed).any (·.2.same b.normal) = done.any (·.2.same b) := by
    rw [List.any_map, Bool.eq_iff_iff, List.any_eq_true, List.any_eq_true]
    refine exists_congr fun n ↦ and_congr_right fun hn ↦ ?_
    rw [← hnames.same_normal_eq (hdone n hn) hb]
    rfl
  have htaken : (done.map Block.normalNamed).map (·.1) = done.map (·.1) := by
    rw [List.map_map]
    rfl
  rw [register, register, Block.materializedName?_normal, hany, htaken, Block.id_normal]
  cases b.materializedName? with
  | none => rfl
  | some name =>
    dsimp only
    split
    · rfl
    · rw [List.map_append]
      rfl

private theorem foldl_register_normal {todo : List Block} (htodo : ∀ b ∈ todo, b ∈ blocks)
    {done : List (String × Block)} (hdone : ∀ n ∈ done, n.2 ∈ blocks) :
    (todo.map Block.normal).foldl register (done.map Block.normalNamed) =
      (todo.foldl register done).map Block.normalNamed := by
  induction todo generalizing done with
  | nil => rfl
  | cons b todo ih =>
    rw [List.forall_mem_cons] at htodo
    rw [List.map_cons, List.foldl_cons, register_normal hnames hdone htodo.1, List.foldl_cons]
    refine ih htodo.2 fun n hn ↦ ?_
    rcases mem_of_mem_register hn with h | ⟨h, -⟩
    · exact hdone n h
    · exact h ▸ htodo.1

end Usage

/-- What a filter uses of conditions is used by what is left of it. -/
theorem Usage.ofBlocks_normal (r : Resolver) {blocks : List Block}
    (hnames : Block.DifferInNames (blocks.flatMap Block.negatedBlocks)) :
    Usage.ofBlocks r (blocks.map Block.normal) =
      { Usage.ofBlocks r blocks with
        negatedBlocks := (Usage.ofBlocks r blocks).negatedBlocks.map Block.normalNamed } := by
  have hconditions : (blocks.map Block.normal).flatMap Block.plainConditions =
      (blocks.flatMap Block.plainConditions).map Condition.normal := by
    rw [List.flatMap_map, List.map_flatMap]
    exact List.flatMap_congr fun b _ ↦ b.plainConditions_normal
  have halike : List.Forall₂ r.CountAlike (blocks.flatMap Block.plainConditions)
      ((blocks.map Block.normal).flatMap Block.plainConditions) := by
    rw [hconditions, List.forall₂_map_right_iff, List.forall₂_same]
    exact fun c _ ↦ r.countAlike_normal c
  obtain ⟨hfields, hvariables, hlists⟩ := Usage.ofBlocks_eq_of_countAlike halike
  have hblocks : (blocks.map Block.normal).flatMap Block.negatedBlocks =
      (blocks.flatMap Block.negatedBlocks).map Block.normal := by
    rw [List.flatMap_map, List.map_flatMap]
    exact List.flatMap_congr fun b _ ↦ b.negatedBlocks_normal
  rw [Usage.mk.injEq]
  refine ⟨hfields.symm, hvariables.symm, hlists.symm, ?_⟩
  simp only [ofBlocks, hblocks]
  have hnone : ∀ n ∈ ([] : List (String × Block)), n.2 ∈ blocks.flatMap Block.negatedBlocks :=
    fun _ hn ↦ by cases hn
  exact foldl_register_normal hnames (fun _ hb ↦ hb) hnone

/-- The projection in which nothing is redundant below the negated named blocks. -/
def Projection.normal (p : Projection) : Projection :=
  { p with blocks := p.blocks.map Block.normalNamed }

namespace Generator

variable (g : Generator)

private theorem projection_normal (always : List String) (usage : Usage) :
    g.projection always { usage with negatedBlocks := usage.negatedBlocks.map Block.normalNamed } =
      (g.projection always usage).normal := by
  have hblocks {computed : String × Block → Option (String × Json × Block)}
      (h : ∀ n, computed (Block.normalNamed n) =
        (computed n).map (Prod.map id (Prod.map id Block.normal))) :
      (usage.negatedBlocks.map Block.normalNamed).filterMap computed =
        (usage.negatedBlocks.filterMap computed).map (Prod.map id (Prod.map id Block.normal)) := by
    rw [List.filterMap_map, List.map_filterMap]
    exact List.filterMap_congr fun n _ ↦ h n
  simp only [projection, Usage.isEmpty, List.isEmpty_map]
  split
  · rfl
  · rw [hblocks]
    · rw [Projection.normal, Projection.mk.injEq]
      refine ⟨?_, rfl, ?_⟩
      · rw [List.map_map]
        rfl
      · rw [List.map_map, List.map_map]
        rfl
    · rintro ⟨name, b⟩
      simp only [Block.normalNamed, childrenExpr_normal, Option.map_map]
      rfl

section Queries

variable {p : Projection} {blocks : List Block}

private theorem find?_normal (hnames : Block.DifferInNames blocks)
    (hp : ∀ n ∈ p.blocks, n.2 ∈ blocks) {b : Block} (hb : b ∈ blocks) :
    p.normal.blocks.find? (·.2.same b.normal) =
      (p.blocks.find? (·.2.same b)).map Block.normalNamed := by
  have hfind : p.blocks.find? (fun n ↦ n.2.normal.same b.normal) =
      p.blocks.find? (·.2.same b) := by
    rw [← List.head?_filter, ← List.head?_filter,
      List.filter_congr fun n hn ↦ hnames.same_normal_eq (hp n hn) hb]
  rw [Projection.normal, List.find?_map]
  exact congrArg (Option.map Block.normalNamed) hfind

mutual

private theorem blockQuery_normal (hnames : Block.DifferInNames blocks)
    (hp : ∀ n ∈ p.blocks, n.2 ∈ blocks) : (b : Block) → b.negatedBlocks ⊆ blocks →
    g.blockQuery p.normal b.normal = g.blockQuery p b
  | ⟨id, logic, children, name, mustHold⟩, h => by
    have hnegated := Block.isNegatedNamed_normal ⟨id, logic, children, name, mustHold⟩
    rw [Block.negatedBlocks] at h
    split at h
    · next hneg =>
      rw [g.blockQuery_of_negated _ (hnegated.trans hneg), g.blockQuery_of_negated _ hneg,
        find?_normal hnames hp (h (List.mem_singleton_self _)), Option.map_map]
      rfl
    · next hplain =>
      have hplain := Bool.eq_false_iff.mpr hplain
      rw [g.blockQuery_of_plain _ (hnegated.trans hplain), g.blockQuery_of_plain _ hplain,
        Block.children_normal, nodeQueries_normalAll hnames hp children h]
      rfl

private theorem nodeQueries_normalAll (hnames : Block.DifferInNames blocks)
    (hp : ∀ n ∈ p.blocks, n.2 ∈ blocks) :
    (nodes : List Node) → Node.negatedBlocks nodes ⊆ blocks →
    g.nodeQueries p.normal (Node.normalAll nodes) = g.nodeQueries p nodes
  | [], _ => rfl
  | .block b :: rest, h => by
    rw [Node.negatedBlocks, List.append_subset] at h
    rw [Node.normalAll, Node.normal, nodeQueries_append,
      Block.map_unwrapped _ fun _ ↦ g.nodeQueries_children p.normal, nodeQueries_block,
      blockQuery_normal hnames hp b h.1, nodeQueries_normalAll hnames hp rest h.2,
      nodeQueries_block, nodeQueries, List.append_nil]
  | .condition c :: rest, h => by
    rw [Node.negatedBlocks] at h
    have hoperand : g.operandExpr .document c.normal = g.operandExpr .document c :=
      g.operandExpr_normal .document fun field ↦ g.elementExpr_normal .document field c.operand
    rw [Node.normalAll, Node.normal_condition, nodeQueries_append,
      nodeQueries_normalAll hnames hp rest h,
      nodeQueries_condition]
    split
    · rw [nodeQueries_condition, conditionQuery_normal, hoperand, nodeQueries, List.append_nil]
      rfl
    · next hc =>
      rw [g.conditionQuery_eq_none p (Bool.eq_false_iff.mpr hc)]
      rfl

end

end Queries

end Generator

namespace Context

variable {ctx : Context} {blocks : List Block}

section Names

variable (hnames : Block.DifferInNames (blocks.flatMap Block.negatedBlocks))

include hnames

/-- The projection of a filter is that of what is left of it. -/
theorem projection_normal :
    ctx.projection (blocks.map Block.normal) = (ctx.projection blocks).normal := by
  rw [projection, usage, Usage.ofBlocks_normal ctx.resolver hnames]
  exact ctx.generator.projection_normal ctx.settings.alwaysProject (ctx.usage blocks)

private theorem filterMembers_normal :
    ctx.filterMembers (blocks.map Block.normal) = ctx.filterMembers blocks := by
  have hp : ∀ n ∈ (ctx.projection blocks).blocks, n.2 ∈ blocks.flatMap Block.negatedBlocks :=
    fun n hn ↦ Usage.mem_negatedBlocks (mem_negatedBlocks_of_computed hn)
  have hqueries : (blocks.map Block.normal).filterMap
        (ctx.generator.blockQuery (ctx.projection blocks).normal) =
      blocks.filterMap (ctx.generator.blockQuery (ctx.projection blocks)) := by
    rw [List.filterMap_map]
    exact List.filterMap_congr fun b hb ↦ ctx.generator.blockQuery_normal hnames hp b fun a ha ↦
      List.mem_flatMap.mpr ⟨b, hb, ha⟩
  simp only [filterMembers, projection_normal hnames, hqueries]

/-- A filter and what is left of it when nothing is redundant have the same pipeline. -/
theorem compile?_normal : ctx.compile? (blocks.map Block.normal) = ctx.compile? blocks := by
  have hused : (ctx.usage (blocks.map Block.normal)).listVariables =
      (ctx.usage blocks).listVariables := by
    rw [usage, Usage.ofBlocks_normal ctx.resolver hnames]
    rfl
  have hcircular : ctx.resolver.isCircular (blocks.map Block.normal)
        (ctx.usage (blocks.map Block.normal)) =
      ctx.resolver.isCircular blocks (ctx.usage blocks) := by
    rw [Resolver.isCircular, Resolver.isCircular, hused, List.flatMap_map]
    simp only [Resolver.blockEntries_normal]
  simp only [compile?, hcircular, projection_normal hnames, filterMembers_normal hnames]
  rfl

end Names

/-- Redundant nodes do not matter: in any context in which no definition leads back to itself, a
filter has a pipeline, it can be reduced as far as it goes, and in whatever order that is done, what
remains has the same pipeline. Negated named blocks that differ have to differ in their names, too.
-/
theorem reduced_pipeline_eq (hacyclic : ∀ name, ¬ TransGen ctx.resolver.Enters name name)
    (hnames : Block.DifferInNames (blocks.flatMap Block.negatedBlocks)) :
    ∃ pipeline, ctx.compile? blocks = some pipeline ∧
      (∃ blocks', List.Forall₂ Block.ReducesTo blocks blocks') ∧
      ∀ blocks', List.Forall₂ Block.ReducesTo blocks blocks' →
        ctx.compile? blocks' = some pipeline := by
  obtain ⟨pipeline, hcompile, -⟩ := ctx.exists_compile?_eq hacyclic blocks
  refine ⟨pipeline, hcompile, ⟨blocks.map Block.normal, ?_⟩, fun blocks' hreduced ↦ ?_⟩
  · exact List.forall₂_map_right_iff.mpr
      (List.forall₂_same.mpr fun b _ ↦ Block.reducesTo_iff.mpr rfl)
  · have hnormal : blocks' = blocks.map Block.normal := by
      rw [← List.forall₂_eq_eq_eq, List.forall₂_map_right_iff]
      exact hreduced.flip.imp fun _ _ h ↦ Block.reducesTo_iff.mp h
    rw [hnormal, compile?_normal hnames, hcompile]

/-- A filter on `survey` that somebody is still writing: there are conditions in which field or
operator is missing, and blocks that such conditions have been taken out of. What is excluded is
excluded twice. -/
def draft : Block where
  id := "root"
  logic := .and
  children :=
    [.condition ⟨"c1", some " ", some (.compare .lt), .literal (.int 3), none⟩,
      .block ⟨"b1", .or, [.block ⟨"b2", .and, [], none, true⟩,
        .condition ⟨"c2", some "low", some (.compare .gt), .literal (.int 0), none⟩], none, false⟩,
      .block excluded,
      .condition ⟨"c3", some "prv", some (.list .filter),
        .nested ⟨"n", .and,
          [.condition ⟨"n1", some "hot", none, .literal .null, none⟩,
            .block ⟨"n2", .or,
              [.condition ⟨"n3", some "jd", some (.compare .gt), .literal (.int 2), none⟩],
              some "late", true⟩],
          none, true⟩, none⟩,
      .block excluded]
  name := none
  mustHold := true
where
  /-- What is excluded. -/
  excluded : Block :=
    ⟨"x", .and,
      [.block ⟨"x1", .and,
        [.condition ⟨"x2", some "mag", some (.compare .gt), .literal (.int 20), none⟩], none, true⟩,
        .condition .empty],
      some "too faint", false⟩

/-- The filter without what is missing and without the blocks around single nodes. -/
def tidy : Block where
  id := "root"
  logic := .and
  children :=
    [.condition ⟨"c2", some "low", some (.compare .gt), .literal (.int 0), none⟩,
      .block excluded,
      .condition ⟨"c3", some "prv", some (.list .filter),
        .nested ⟨"n", .and,
          [.condition ⟨"n3", some "jd", some (.compare .gt), .literal (.int 2), none⟩], none, true⟩,
        none⟩,
      .block excluded]
  name := none
  mustHold := true
where
  /-- What is excluded. -/
  excluded : Block :=
    ⟨"x", .and, [.condition ⟨"x2", some "mag", some (.compare .gt), .literal (.int 20), none⟩],
      some "too faint", false⟩

/-- The filter in the making and the tidy one have the same pipeline. -/
theorem tidy_pipeline_eq : ∃ pipeline, survey.compile? [draft] = some pipeline ∧
    survey.compile? [tidy] = some pipeline := by
  have hacyclic : ∀ name, ¬ TransGen survey.resolver.Enters name name :=
    survey.resolver.acyclic_iff.mpr (by decide +kernel)
  have hnames : Block.DifferInNames ([draft].flatMap Block.negatedBlocks) := by decide +kernel
  have htidy : tidy = draft.normal := rfl
  obtain ⟨pipeline, hcompile, -, hreduced⟩ := reduced_pipeline_eq hacyclic hnames
  exact ⟨pipeline, hcompile,
    hreduced [tidy] (.cons (Block.reducesTo_iff.mpr htidy) .nil)⟩

end Context
end FilterPipeline
