import FilterPipeline.Proofs.ProjectionCoverage
import FilterPipeline.Proofs.Spots

/-!
# Switching a condition off

A condition whose switch is `false` is the negation of the same one whose switch is `true`. Main
statements: each of the two forms of a condition is negated once, whatever the condition is about;
and in a filter nothing else changes.
-/

namespace FilterPipeline

open Fragment Relation

/-- The condition with its switch set. -/
def Condition.switched (c : Condition) (on : Bool) : Condition := { c with switch := some on }

private theorem Fragment.negateQuery_exprQuery (e : Json) :
    negateQuery (exprQuery e) = exprQuery (negateExpr e) := rfl

namespace Resolver

variable (r : Resolver) (c : Condition)

/-- The switch of a condition does not matter for what is used. -/
theorem countAlike_switched (on on' : Bool) :
    r.CountAlike (c.switched on) (c.switched on') :=
  ⟨rfl, rfl, rfl, rfl, rfl⟩

end Resolver

namespace Generator

variable (g : Generator) (c : Condition)

/-- The switch of a condition does not matter for its element predicate. -/
theorem operandExpr_switched (scope : Scope) (on : Bool) :
    g.operandExpr scope (c.switched on) = g.operandExpr scope c := rfl

/-- What does not depend on the switch is negated when that is off. -/
theorem bind_switched {α : Type} (negate : Json → Json) (f : α → Json) (e : Option α) :
    (e.bind fun x ↦ some (if (c.switched false).isNegated then negate (f x) else f x)) =
      (e.bind fun x ↦
        some (if (c.switched true).isNegated then negate (f x) else f x)).map negate := by
  cases e <;> rfl

/-- A written-out list variable is negated when the switch is off, whatever its own switch is. -/
theorem listReferenceExpr_switched (op : Operator) (v : ListVariable) :
    g.listReferenceExpr (c.switched false) op v =
      (g.listReferenceExpr (c.switched true) op v).map negateExpr := by
  unfold listReferenceExpr
  cases g.variableQuery? v with
  | none => rfl
  | some q =>
    simp only [Option.bind_eq_bind, Option.bind_some]
    cases q.op with
    | quantifier => rfl
    | aggregate | filter => exact bind_switched c negateExpr id _

private theorem materializedQuery_switched (op : Operator) (name : String) (l : ListOperator) :
    g.materializedQuery (c.switched false) op name l =
      (g.materializedQuery (c.switched true) op name l).map negateQuery := by
  cases l with
  | quantifier | aggregate => exact bind_switched c negateQuery id _
  | filter =>
    cases op with
    | longerThan | shorterThan => exact bind_switched c negateQuery id _
    | _ => rfl

/-- The expression of a condition is negated when the switch is off. -/
theorem conditionExpr_switched (scope : Scope) (element : Option Json) :
    g.conditionExpr scope (c.switched false) element =
      (g.conditionExpr scope (c.switched true) element).map negateExpr := by
  have hfield (on : Bool) : (c.switched on).fieldName? = c.fieldName? := rfl
  have hop (on : Bool) : (c.switched on).operator = c.operator := rfl
  have hoperand (on : Bool) : (c.switched on).operand = c.operand := rfl
  simp only [conditionExpr, Option.bind_eq_bind, hfield, hop, hoperand]
  cases c.fieldName? with
  | none => rfl
  | some field =>
    cases c.operator with
    | none => rfl
    | some op =>
      simp only [Option.bind_some]
      cases g.resolver.classify field with
      | list v l => exact g.listReferenceExpr_switched c op v
      | base => exact bind_switched c negateExpr id _
      | arithmetic v =>
        cases g.resolver.expand? g.readFormula field with
        | none => exact bind_switched c negateExpr id _
        | some t =>
          cases c.operand.literal? with
          | none => rfl
          | some v => exact bind_switched c negateExpr id _

/-- The query of a condition is negated when the switch is off. -/
theorem conditionQuery_switched (p : Projection) (element : Option Json) :
    g.conditionQuery p (c.switched false) element =
      (g.conditionQuery p (c.switched true) element).map negateQuery := by
  have hfield (on : Bool) : (c.switched on).fieldName? = c.fieldName? := rfl
  have hop (on : Bool) : (c.switched on).operator = c.operator := rfl
  have hoperand (on : Bool) : (c.switched on).operand = c.operand := rfl
  simp only [conditionQuery, Option.bind_eq_bind, hfield, hop, hoperand]
  cases c.fieldName? with
  | none => rfl
  | some field =>
    cases c.operator with
    | none => rfl
    | some op =>
      simp only [Option.bind_some]
      cases g.resolver.classify field with
      | list v l =>
        dsimp only
        split
        · exact g.materializedQuery_switched c op v.key l
        · rw [g.listReferenceExpr_switched, Option.map_map, Option.map_map]
          exact Option.map_congr fun e _ ↦ (negateQuery_exprQuery e).symm
      | base => exact bind_switched c negateQuery id _
      | arithmetic v =>
        cases g.resolver.expand? g.readFormula field with
        | none => exact bind_switched c negateQuery id _
        | some t =>
          cases c.operand.literal? with
          | none => rfl
          | some v => exact bind_switched c negateQuery exprQuery _

end Generator

namespace Context

variable (ctx : Context)

/-- What the match of a filter asks for a condition, if anything. -/
def fragment? (blocks : List Block) (c : Condition) : Option Json :=
  ctx.generator.conditionQuery (ctx.projection blocks) c (ctx.generator.operandExpr .document c)

/-- The content of a match that asks for something in the place for a condition, and around it what
a filter with some projection asks for. -/
def matchAround (p : Projection) (s : Spot) (fragment : Option Json) : Members :=
  (ctx.generator.spotQueries p s fragment).foldl mergeRoot []

/-- The match of a filter asks for a condition around which it asks for the rest. -/
theorem filterMembers_fill {s : Spot} (hs : s.IsPlain) (c : Condition) :
    ctx.filterMembers (s.fill c) =
      ctx.matchAround (ctx.projection (s.fill c)) s (ctx.fragment? (s.fill c) c) := by
  simp only [filterMembers, Generator.filterMap_blockQuery_fill _ _ hs]
  rfl

/-- A stage that is there only if it has a content is known by its content. -/
theorem stage_eq_of_content {stage stage' : Option Members} (h : stage ≠ some [])
    (h' : stage' ≠ some []) (hcontent : stage.getD [] = stage'.getD []) : stage = stage' := by
  cases stage with
  | none =>
    cases stage' with
    | none => rfl
    | some content' => exact absurd (congrArg some hcontent.symm) h'
  | some content =>
    cases stage' with
    | none => exact absurd (congrArg some hcontent) h
    | some content' => exact congrArg some hcontent

/-- A switch negates the condition and nothing else. In any context in which no definition leads
back to itself, take a condition outside of negated named blocks and element predicates, switched on
and switched off. Both filters have a pipeline, with the same projection. The match asks for the
negation of what it asked for in the place of the condition, or for nothing still, and for every
other condition what it asked for. And in every scope the expression of a condition that is switched
off is the negation of that of the condition switched on, whatever the definitions of list variables
are compiled to. -/
theorem switch_negates_fragment (hacyclic : ∀ name, ¬ TransGen ctx.resolver.Enters name name)
    {s : Spot} (hs : s.IsPlain) (c : Condition) :
    (∃ on off fragment,
      ctx.compile? (s.fill (c.switched true)) = some on ∧
      ctx.compile? (s.fill (c.switched false)) = some off ∧
      off.projection = on.projection ∧
      ctx.fragment? (s.fill (c.switched true)) (c.switched true) = fragment ∧
      ctx.fragment? (s.fill (c.switched false)) (c.switched false) = fragment.map negateQuery ∧
      (∀ other, ctx.fragment? (s.fill (c.switched false)) other =
        ctx.fragment? (s.fill (c.switched true)) other) ∧
      on.filter.getD [] =
        ctx.matchAround (ctx.projection (s.fill (c.switched true))) s fragment ∧
      off.filter.getD [] =
        ctx.matchAround (ctx.projection (s.fill (c.switched true))) s
          (fragment.map negateQuery)) ∧
    ∀ (g : Generator) (scope : Scope), g.nodeExpr scope (.condition (c.switched false)) =
      (g.nodeExpr scope (.condition (c.switched true))).map negateExpr := by
  have hprojection : ctx.projection (s.fill (c.switched false)) =
      ctx.projection (s.fill (c.switched true)) :=
    projection_fill hs (ctx.resolver.countAlike_switched c false true) rfl
  have hfragment : ctx.fragment? (s.fill (c.switched false)) (c.switched false) =
      (ctx.fragment? (s.fill (c.switched true)) (c.switched true)).map negateQuery := by
    rw [fragment?, fragment?, hprojection, Generator.operandExpr_switched,
      Generator.operandExpr_switched, Generator.conditionQuery_switched]
  obtain ⟨on, hon, honProjection, honFilter, honNe, -⟩ :=
    ctx.exists_compile?_eq hacyclic (s.fill (c.switched true))
  obtain ⟨off, hoff, hoffProjection, hoffFilter, hoffNe, -⟩ :=
    ctx.exists_compile?_eq hacyclic (s.fill (c.switched false))
  refine ⟨⟨on, off, _, hon, hoff, ?_, rfl, hfragment, fun other ↦ ?_, ?_, ?_⟩, fun g scope ↦ ?_⟩
  · apply stage_eq_of_content hoffNe honNe
    rw [hoffProjection, honProjection, hprojection]
  · rw [fragment?, fragment?, hprojection]
  · rw [honFilter, ctx.filterMembers_fill hs]
  · rw [hoffFilter, ctx.filterMembers_fill hs, hprojection, hfragment]
  · rw [Generator.nodeExpr_condition, Generator.nodeExpr_condition,
      Generator.operandExpr_switched, Generator.operandExpr_switched,
      Generator.conditionExpr_switched]

/-- A place in a filter on `survey`, in a block with another condition and next to a negated one. -/
def surveySpot : Spot where
  before := [surveyFilter]
  root :=
    ⟨"root", .and, [.block ⟨"n", .and,
        [.condition ⟨"n1", some "mag", some (.compare .gt), .literal (.int 20), none⟩],
        some "too faint", false⟩], [], none, true⟩
  inner :=
    [⟨"inner", .or, [],
      [.condition ⟨"c1", some "low", some (.compare .lt), .literal (.int 9), none⟩], none, false⟩]
  after := []

/-- In that place the switch negates what is asked for a condition on `hot`, which is a quantifier
and compared with a truth value. -/
theorem surveySpot_negates_fragment :
    let c : Condition := ⟨"c", some "hot", some (.compare .ne), .literal (.str "true"), none⟩
    surveySpot.IsPlain ∧ ∃ on off fragment,
      survey.compile? (surveySpot.fill (c.switched true)) = some on ∧
      survey.compile? (surveySpot.fill (c.switched false)) = some off ∧
      off.projection = on.projection ∧
      survey.fragment? (surveySpot.fill (c.switched true)) (c.switched true) = fragment ∧
      survey.fragment? (surveySpot.fill (c.switched false)) (c.switched false) =
        fragment.map negateQuery := by
  intro c
  have hacyclic : ∀ name, ¬ TransGen survey.resolver.Enters name name :=
    survey.resolver.acyclic_iff.mpr (by decide +kernel)
  have hplain : surveySpot.IsPlain := by decide +kernel
  obtain ⟨⟨on, off, fragment, hon, hoff, hprojection, hfragment, hnegated, -⟩, -⟩ :=
    survey.switch_negates_fragment hacyclic hplain c
  exact ⟨hplain, on, off, fragment, hon, hoff, hprojection, hfragment, hnegated⟩

end Context
end FilterPipeline
