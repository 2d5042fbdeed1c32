import FilterPipeline.Compile.ExpressionForm
import FilterPipeline.Proofs.AlikeLiterals

/-!
# What expressions refer to does not depend on literals

Corresponding blocks whose literals are alike for a string are compiled to expressions that both
refer to it or both do not. One lemma for each function of the compiler leads there, and each says
besides that both sides are compiled to something or neither is.
-/

namespace FilterPipeline

open Fragment Json

variable {r : String}

/-- Corresponding operands have literals that stand in the relation, or none. -/
theorem Operand.Rel.literal? {L : Bool → Json → Json → Prop} {free : Bool}
    {operand operand' : Operand} (h : operand.Rel L free operand') :
    Option.Rel (L free) operand.literal? operand'.literal? := by
  cases h with
  | literal h => exact .some h
  | nested | list => exact .none

/-- Literals of corresponding conditions stand in a reflexive relation, null for a missing one. -/
theorem Condition.Rel.literal_getD {L : Bool → Json → Json → Prop} (hL : ∀ free v, L free v v)
    {c c' : Condition} {op : Operator} (hc : c.Rel L c') (hop : c.operator = some op) :
    L op.takesText (c.operand.literal?.getD .null) (c'.operand.literal?.getD .null) := by
  have hoperand := hc.operand
  rw [hop] at hoperand
  rcases rel_cases hoperand.literal? with ⟨hv, hv'⟩ | ⟨v, w, hv, hv', h⟩
  · rw [hv, hv']
    exact hL _ _
  · rw [hv, hv']
    exact h

/-- Two questions about an array are the same but for predicates that read alike and literals that
are alike. -/
structure ListQuery.ReadAlike (r : String) (q q' : ListQuery) : Prop where
  op : q.op = q'.op
  arrayPath : q.arrayPath = q'.arrayPath
  reference : q.reference = q'.reference
  subField : q.subField = q'.subField
  element : Option.Rel (Json.ReadAlike r) q.element q'.element
  scalar : Option.Rel (Alike r true) q.scalar q'.scalar
  comparison : q.comparison = q'.comparison
  comparisonValue : Option.Rel (Alike r true) q.comparisonValue q'.comparisonValue

namespace ListQuery

section

variable {element element' : Option Json}
  (helement : Option.Rel (Json.ReadAlike r) element element')

include helement

/-- Corresponding list conditions ask the same but for their literals. -/
theorem readAlike_ofListCondition? {d d' : ListCondition} (hd : d.Rel (Alike r) d')
    (outer : Option Operator) (scope : Scope) :
    Option.Rel (ReadAlike r) (ofListCondition? d outer scope element)
      (ofListCondition? d' outer scope element') := by
  cases hd with
  | mk hoperand hvalue =>
    simp only [ofListCondition?, ListCondition.listOperator?, ListCondition.arrayPath?,
      Option.bind_eq_bind]
    cases (outer.bind Operator.list?).or _ with
    | none => exact .none
    | some op =>
      cases Text.trimmed? _ with
      | none => exact .none
      | some field => exact .some ⟨rfl, rfl, rfl, rfl, helement, hoperand.literal?, rfl, hvalue⟩

/-- List operators on corresponding operands ask the same but for their literals. -/
theorem readAlike_ofCondition {operand operand' : Operand}
    (hoperand : operand.Rel (Alike r) true operand') (field : String) (op : ListOperator)
    (scope : Scope) : ReadAlike r (ofCondition field op operand scope element)
      (ofCondition field op operand' scope element') :=
  ⟨rfl, rfl, rfl, rfl, helement, hoperand.literal?, rfl, .none⟩

end

namespace ReadAlike

variable {q q' : ListQuery} (h : ReadAlike r q q')

include h

/-- Predicates on elements read alike. -/
theorem elementPredicate? :
    Option.Rel (Json.ReadAlike r) q.elementPredicate? q'.elementPredicate? := by
  refine rel_or h.element (rel_map (rel_filter h.scalar fun _ _ hv ↦ hv.isComparable_eq) ?_)
  intro v w hv
  have hread : r ∈ v.references ↔ r ∈ w.references := hv.readAlike
  simp [Json.ReadAlike, hread]

/-- Arrays to walk over are the same. -/
theorem input_eq : q.input = q'.input := by rw [ListQuery.input, ListQuery.input, h.reference]

/-- Quantifiers read alike. -/
theorem quantifierExpr : Json.ReadAlike r q.quantifierExpr q'.quantifierExpr := by
  simp only [ListQuery.quantifierExpr, Json.ReadAlike, mem_references_single, h.op, h.input_eq]
  refine and_congr_right fun _ ↦ ?_
  rcases rel_cases h.elementPredicate? with ⟨hp, hp'⟩ | ⟨p, p', hp, hp', hread⟩
  · rw [hp, hp']
  · rw [hp, hp']
    simpa using or_congr_left hread

/-- Filters read alike. -/
theorem filterExpr? : Option.Rel (Json.ReadAlike r) q.filterExpr? q'.filterExpr? := by
  refine rel_map h.elementPredicate? fun p p' hp ↦ ?_
  simpa [Json.ReadAlike, h.input_eq] using or_congr_left hp

private theorem aggregateExpr_eq : q.aggregateExpr = q'.aggregateExpr := by
  rw [ListQuery.aggregateExpr, ListQuery.aggregateExpr, h.op, h.subField, h.reference]

/-- Comparisons of aggregates read alike. -/
theorem aggregateComparison : Json.ReadAlike r q.aggregateComparison q'.aggregateComparison := by
  have htarget : Option.Rel (Alike r true) q.target? q'.target? :=
    rel_or (rel_filter h.comparisonValue fun _ _ hv ↦ by rw [hv.isNull_eq])
      (rel_filter h.scalar fun _ _ hv ↦ hv.isComparable_eq)
  simp only [ListQuery.aggregateComparison, h.aggregateExpr_eq, h.comparison]
  rcases rel_cases htarget with ⟨hv, hv'⟩ | ⟨v, v', hv, hv', halike⟩
  · rw [hv, hv']
    exact Iff.rfl
  · rw [hv, hv']
    exact Json.ReadAlike.pair Iff.rfl halike.coerceNumber

private theorem predicate_toExpr : Json.ReadAlike r q.predicate.toExpr q'.predicate.toExpr := by
  simp only [ListQuery.predicate, h.op]
  split
  · exact h.quantifierExpr
  · rcases rel_cases h.filterExpr? with ⟨he, he'⟩ | ⟨e, e', he, he', hread⟩
    · rw [he, he', h.arrayPath, h.reference]
      exact Iff.rfl
    · rw [he, he']
      exact Json.ReadAlike.pair hread.single Iff.rfl
  · exact h.aggregateComparison

end ReadAlike
end ListQuery

namespace Generator

variable {g : Generator} {scope : Scope}

/-- Comparisons of expressions that read alike, with alike literals, read alike. -/
theorem readAlike_compareExpr {lhs lhs' v w : Json} {op : Operator}
    (hlhs : ReadAlike r lhs lhs') (hv : Alike r op.takesText v w) (type : Option FieldType) :
    Option.Rel (ReadAlike r) (g.compareExpr lhs op v type) (g.compareExpr lhs' op w type) := by
  have hregex : ∀ {s t}, ReadAlike r (.str s) (.str t) →
      ReadAlike r (g.regexExpr lhs s) (g.regexExpr lhs' t) := by
    intro s t hst
    simp only [regexExpr, ReadAlike, mem_references_single, mem_references_obj,
      List.exists_mem_cons_iff] at hlhs hst ⊢
    rw [hlhs, hst]
  have hsize : ReadAlike r (sizeOfArray lhs) (sizeOfArray lhs') := by
    simpa [ReadAlike] using hlhs
  cases op with
  | compare c => exact .some (hlhs.pair (hv.coerceFor type))
  | oneOf => exact .some (hlhs.pair hv.wrapList)
  | noneOf => exact .some ((hlhs.pair hv.wrapList).negated true true)
  | regex => exact .some (hregex hv.regexText)
  | contains | startsWith | endsWith => exact .some (hregex (hv.literalPattern _ _))
  | present =>
    refine .some ?_
    have htype : ∀ key, ReadAlike r (.single key (.arr [.single "$type" lhs, .str "missing"]))
        (.single key (.arr [.single "$type" lhs', .str "missing"])) :=
      fun key ↦ hlhs.single.pair Iff.rfl
    have hkeys : ∀ e : Json, ReadAlike r (.single "$eq" e) (.single "$ne" e) := by
      simp [ReadAlike]
    split <;> split
    · exact htype _
    · exact (htype _).trans (hkeys _)
    · exact (htype _).trans (hkeys _).symm
    · exact htype _
  | isNumber => exact .some hlhs.single
  | between | notBetween =>
    exact rel_bind hv.rangeBounds? fun p q hpq ↦
      .some ((hlhs.pair hpq.1).pair (hlhs.pair hpq.2))
  | longerThan =>
    refine rel_bind hv.number? fun x y hxy ↦ .some ?_
    rw [hxy.1]
    split
    · exact Iff.rfl
    · exact hsize.pair (.of_eq (by simp))
  | shorterThan =>
    refine rel_bind hv.number? fun x y hxy ↦ .some ?_
    rw [hxy.2]
    split
    · exact Iff.rfl
    · exact hsize.pair (.of_eq (by simp))
  | list l => exact .none

private theorem readAlike_negated {c c' : Condition} {e e' : Option Json}
    (he : Option.Rel (ReadAlike r) e e') :
    Option.Rel (ReadAlike r) (e.bind fun e ↦ some (if c.isNegated then negateExpr e else e))
      (e'.bind fun e ↦ some (if c'.isNegated then negateExpr e else e)) :=
  rel_bind he fun _ _ h ↦ .some (h.negated _ _)

/-- Corresponding conditions on a list variable that is written out read alike. -/
theorem readAlike_listReferenceExpr {c c' : Condition} {op : Operator}
    (hc : c.Rel (Alike r) c') (hop : c.operator = some op) (v : ListVariable) :
    Option.Rel (ReadAlike r) (g.listReferenceExpr c op v) (g.listReferenceExpr c' op v) := by
  have hliteral := hc.literal_getD (fun _ v ↦ .refl v) hop
  simp only [listReferenceExpr, Option.bind_eq_bind]
  cases g.variableQuery? v with
  | none => exact .none
  | some q =>
    rw [Option.bind_some, Option.bind_some]
    cases q.op with
    | quantifier k =>
      have hread : ∀ (e : Json) (flipped holds : Bool),
          r ∈ (if holds then (if flipped then negateExpr e else e)
            else negateExpr (if flipped then negateExpr e else e)).references ↔
          r ∈ e.references := by
        intro e flipped holds
        cases flipped <;> cases holds <;> simp
      exact .some ((hread _ _ _).trans (hread _ _ _).symm)
    | aggregate a => exact readAlike_negated (readAlike_compareExpr (g := g) Iff.rfl hliteral _)
    | filter =>
      refine readAlike_negated ?_
      cases op with
      | longerThan | shorterThan | present =>
        exact readAlike_compareExpr (g := g) Iff.rfl hliteral (some .array)
      | _ => exact .some Iff.rfl

private theorem readAlike_baseExpr {operand operand' : Operand} {element element' : Option Json}
    {op : Operator} (hoperand : operand.Rel (Alike r) op.takesText operand')
    (helement : Option.Rel (ReadAlike r) element element') (field : String) :
    Option.Rel (ReadAlike r) (g.baseExpr scope field op operand element)
      (g.baseExpr scope field op operand' element') := by
  cases hoperand with
  | list hd =>
    exact rel_map (ListQuery.readAlike_ofListCondition? helement hd _ _)
      fun _ _ hq ↦ hq.predicate_toExpr
  | literal hv =>
    cases op with
    | list l =>
      exact .some (ListQuery.readAlike_ofCondition helement (.literal hv) _ _ _).predicate_toExpr
    | _ =>
      exact readAlike_compareExpr (g := g) Iff.rfl hv
        (g.resolver.fieldType? (scope.schemaPath field))
  | nested hb =>
    cases op with
    | list l =>
      exact .some (ListQuery.readAlike_ofCondition helement (.nested hb) _ _ _).predicate_toExpr
    | _ => exact .none

private theorem readAlike_conditionExpr {c c' : Condition} {element element' : Option Json}
    (hc : c.Rel (Alike r) c') (helement : Option.Rel (ReadAlike r) element element') :
    Option.Rel (ReadAlike r) (g.conditionExpr scope c element)
      (g.conditionExpr scope c' element') := by
  simp only [conditionExpr, Option.bind_eq_bind, ← hc.fieldName?_eq, ← hc.operator_eq]
  cases c.fieldName? with
  | none => exact .none
  | some field =>
    cases hop : c.operator with
    | none => exact .none
    | some op =>
      have hoperand := hc.operand
      rw [hop] at hoperand
      simp only [Option.bind_some]
      cases g.resolver.classify field with
      | list v l => exact readAlike_listReferenceExpr hc hop v
      | base => exact readAlike_negated (readAlike_baseExpr hoperand helement field)
      | arithmetic v =>
        cases g.resolver.expand? g.readFormula field with
        | none => exact readAlike_negated (readAlike_baseExpr hoperand helement field)
        | some t =>
          exact rel_bind hoperand.literal? fun _ _ hv ↦
            readAlike_negated (readAlike_compareExpr (g := g) Iff.rfl hv _)

private theorem readAlike_operandExpr_of {c c' : Condition} (hc : c.Rel (Alike r) c')
    (h : Option.Rel (ReadAlike r) (g.elementExpr scope (c.fieldName?.getD "") c.operand)
      (g.elementExpr scope (c'.fieldName?.getD "") c'.operand)) :
    Option.Rel (ReadAlike r) (g.operandExpr scope c) (g.operandExpr scope c') := by
  simp only [operandExpr, ← Resolver.entersOperand_eq hc]
  split
  · exact h
  · exact .none

mutual

/-- Corresponding blocks read alike as expressions. -/
theorem readAlike_blockExpr (scope : Scope) : (b : Block) → ∀ b', b.Rel (Alike r) b' →
    Option.Rel (ReadAlike r) (g.blockExpr scope b) (g.blockExpr scope b')
  | ⟨_, _, children, _, _⟩, _, .mk h =>
    rel_map (ReadAlike.combine (forall₂_nodeExprs scope children _ h)) fun _ _ he ↦ he.negated _ _

/-- Corresponding nodes read alike as expressions. -/
theorem forall₂_nodeExprs (scope : Scope) : (nodes : List Node) →
    ∀ nodes', List.Forall₂ (Node.Rel (Alike r)) nodes nodes' →
    List.Forall₂ (ReadAlike r) (g.nodeExprs scope nodes) (g.nodeExprs scope nodes')
  | [], _, .nil => .nil
  | .block b :: rest, _, .cons (.block h) hrest => by
    rw [nodeExprs_cons, nodeExprs_cons, nodeExpr, nodeExpr]
    exact List.rel_append (forall₂_toList (readAlike_blockExpr scope b _ h))
      (forall₂_nodeExprs scope rest _ hrest)
  | .condition ⟨_, _, _, operand, _⟩ :: rest, _, .cons (.condition hc@(.mk h)) hrest => by
    rw [nodeExprs_cons, nodeExprs_cons, nodeExpr_condition, nodeExpr_condition]
    refine List.rel_append (forall₂_toList (readAlike_conditionExpr hc ?_))
      (forall₂_nodeExprs scope rest _ hrest)
    exact readAlike_operandExpr_of hc (readAlike_elementExpr scope _ operand _ h)

/-- Corresponding element predicates read alike. -/
theorem readAlike_elementExpr {free : Bool} (scope : Scope) (field : String) :
    (operand : Operand) → ∀ operand', operand.Rel (Alike r) free operand' →
    Option.Rel (ReadAlike r) (g.elementExpr scope field operand)
      (g.elementExpr scope field operand')
  | .literal _, _, .literal _ => .none
  | .nested b, _, .nested h => readAlike_blockExpr _ b _ h
  | .list ⟨_, _, _, operand, _, _, _⟩, .list ⟨_, _, _, operand', _, _, _⟩, .list (.mk h _) => by
    cases operand with
    | literal v =>
      cases h
      exact .none
    | nested b =>
      cases h with
      | nested h =>
        simp only [elementExpr]
        exact readAlike_blockExpr _ b _ h
    | list d =>
      cases h
      exact .none

end

/-- Element predicates of corresponding conditions read alike, where they are entered. -/
theorem readAlike_operandExpr {c c' : Condition} (hc : c.Rel (Alike r) c') :
    Option.Rel (ReadAlike r) (g.operandExpr scope c) (g.operandExpr scope c') := by
  apply readAlike_operandExpr_of hc
  rw [← hc.fieldName?_eq]
  exact readAlike_elementExpr scope _ _ _ hc.operand

/-- The children of corresponding blocks read alike, whether the blocks must hold or not. -/
theorem readAlike_childrenExpr {b b' : Block} (h : b.Rel (Alike r) b') :
    Option.Rel (ReadAlike r) (g.childrenExpr scope b) (g.childrenExpr scope b') := by
  cases h with
  | mk h => exact ReadAlike.combine (forall₂_nodeExprs scope _ _ h)

end Generator
end FilterPipeline
