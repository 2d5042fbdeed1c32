import FilterPipeline.Compile.QueryForm
import FilterPipeline.Proofs.AlikeExpressions

/-!
# What queries refer to does not depend on literals

In the match of a filter a literal may be replaced by another text. Where neither text is a certain
reference, the queries of the filter make that reference as before, apart from the names of the
fields that are computed for negated blocks.
-/

namespace FilterPipeline

open Fragment Json

/-- What may be put in the place of a literal: the literal itself, or for the text `s`, where the
operator takes texts, the text `t`. -/
def Json.Replaces (s t : String) (free : Bool) (v w : Json) : Prop :=
  v = w ∨ free = true ∧ v = .str s ∧ w = .str t

/-- Both queries refer to a string or neither does. -/
def Json.QueriedAlike (r : String) (q q' : Json) : Prop :=
  r ∈ q.queryReferences ↔ r ∈ q'.queryReferences

variable {r s t : String}

/-- Texts that are not empty and not a certain reference are alike for that. -/
theorem Json.Replaces.alike (hs : s ≠ "") (ht : t ≠ "") (hrs : r ∉ (Json.str s).references)
    (hrt : r ∉ (Json.str t).references) {free : Bool} {v w : Json} (h : Replaces s t free v w) :
    Alike r free v w := by
  rcases h with rfl | ⟨rfl, rfl, rfl⟩
  · exact .refl v
  · exact .texts hs ht hrs hrt

private theorem Json.queriedAlike_test (path : String) {test test' : Members}
    (h : ReadAlike r (.obj test) (.obj test')) :
    QueriedAlike r (.single path (.obj test)) (.single path (.obj test')) := by
  simp only [QueriedAlike, single, queryReferences, testReferences, branchReferences,
    List.append_nil]
  split
  · exact h
  · rfl

private theorem ListQuery.ReadAlike.predicate_toQuery {q q' : ListQuery}
    (h : ListQuery.ReadAlike r q q') :
    QueriedAlike r q.predicate.toQuery q'.predicate.toQuery := by
  have hexpr : ∀ {e e' : Json}, Json.ReadAlike r e e' →
      QueriedAlike r (exprQuery e) (exprQuery e') := by
    intro e e' he
    rw [QueriedAlike, queryReferences_exprQuery, queryReferences_exprQuery]
    exact he
  simp only [ListQuery.predicate, h.op]
  split
  · exact hexpr h.quantifierExpr
  · rcases rel_cases h.filterExpr? with ⟨he, he'⟩ | ⟨e, e', he, he', hread⟩
    · rw [he, he', h.arrayPath, h.reference]
      exact Iff.rfl
    · rw [he, he']
      exact hexpr (Json.ReadAlike.pair hread.single Iff.rfl)
  · exact hexpr h.aggregateComparison

namespace Generator

variable {g : Generator}

private theorem rel_negated {c c' : Condition} (hc : c.isNegated = c'.isNegated)
    {q q' : Option Json} (hq : Option.Rel (QueriedAlike r) q q') :
    Option.Rel (QueriedAlike r) (q.bind fun q ↦ some (if c.isNegated then negateQuery q else q))
      (q'.bind fun q ↦ some (if c'.isNegated then negateQuery q else q)) := by
  refine rel_bind hq fun q q' h ↦ .some ?_
  rw [hc]
  split
  · rw [QueriedAlike, mem_queryReferences_negateQuery, mem_queryReferences_negateQuery]
    exact h
  · exact h

section Conditions

variable (hs : s ≠ "") (ht : t ≠ "") (hrs : r ∉ (Json.str s).references)
  (hrt : r ∉ (Json.str t).references)

include hs ht hrs hrt

/-- A field compared with a replaced literal is referred to as before. -/
theorem queriedAlike_compareQuery {op : Operator} {v w : Json}
    (hv : Replaces s t op.takesText v w) (field : String) (type : Option FieldType) :
    Option.Rel (QueriedAlike r) (g.compareQuery field op v type)
      (g.compareQuery field op w type) := by
  have halike := hv.alike hs ht hrs hrt
  rcases hv with rfl | ⟨hfree, rfl, rfl⟩
  · exact rel_refl fun _ ↦ Iff.rfl
  have htest : ∀ key {e e' : Json}, ReadAlike r e e' →
      QueriedAlike r (.single field (.single key e)) (.single field (.single key e')) :=
    fun key _ _ he ↦ queriedAlike_test field he.single
  cases op with
  | compare c =>
    have hoperand := halike.coerceFor type
    cases c with
    | eq | ne =>
      simp only [compareQuery, bool?, Option.isSome_none, Bool.or_false]
      split
      · exact .some (htest _ (.arr (.cons hoperand .nil)))
      · exact .some (htest _ hoperand)
    | gt | gte | lt | lte => exact .some (htest _ hoperand)
  | oneOf | noneOf => exact .some (htest _ halike.wrapList)
  | list l => exact .none
  | regex | contains | startsWith | endsWith | present | isNumber | between | notBetween
  | longerThan | shorterThan => cases hfree

private theorem queriedAlike_baseQuery {op : Operator} {operand operand' : Operand}
    {element element' : Option Json}
    (hoperand : operand.Rel (Replaces s t) op.takesText operand')
    (helement : Option.Rel (ReadAlike r) element element') (field : String) :
    Option.Rel (QueriedAlike r) (g.baseQuery field op operand element)
      (g.baseQuery field op operand' element') := by
  have halike := Operand.Rel.mono (fun _ _ _ hv ↦ hv.alike hs ht hrs hrt) operand operand' hoperand
  cases hoperand with
  | list _ =>
    cases halike with
    | list hd =>
      exact rel_map (ListQuery.readAlike_ofListCondition? helement hd _ _)
        fun _ _ hq ↦ hq.predicate_toQuery
  | literal hv =>
    cases op with
    | list l =>
      exact .some (ListQuery.readAlike_ofCondition helement halike _ _ _).predicate_toQuery
    | _ =>
      exact queriedAlike_compareQuery (g := g) hs ht hrs hrt hv field
        (g.resolver.fieldType? field)
  | nested hb =>
    cases op with
    | list l =>
      exact .some (ListQuery.readAlike_ofCondition helement halike _ _ _).predicate_toQuery
    | _ => exact .none

private theorem queriedAlike_materializedQuery {c c' : Condition} {op : Operator}
    (hc : c.Rel (Replaces s t) c') (hop : c.operator = some op) (name : String)
    (l : ListOperator) :
    Option.Rel (QueriedAlike r) (g.materializedQuery c op name l)
      (g.materializedQuery c' op name l) := by
  have hliteral := hc.literal_getD (fun _ _ ↦ Or.inl rfl) hop
  have hcompare := fun type ↦
    queriedAlike_compareQuery (g := g) hs ht hrs hrt hliteral name type
  simp only [materializedQuery, Option.bind_eq_bind]
  cases l with
  | quantifier | aggregate => exact rel_negated hc.isNegated_eq (hcompare _)
  | filter =>
    cases op with
    | longerThan | shorterThan | present =>
      exact rel_negated hc.isNegated_eq (hcompare (some .array))
    | _ => exact rel_negated hc.isNegated_eq (.some Iff.rfl)

private theorem queriedAlike_conditionQuery {p p' : Projection} {c c' : Condition}
    {element element' : Option Json} (hlists : p.lists = p'.lists)
    (hc : c.Rel (Replaces s t) c') (helement : Option.Rel (ReadAlike r) element element') :
    Option.Rel (QueriedAlike r) (g.conditionQuery p c element)
      (g.conditionQuery p' c' element') := by
  have halike : c.Rel (Alike r) c' := hc.mono fun _ _ _ hv ↦ hv.alike hs ht hrs hrt
  have hexpr : ∀ {e e' : Option Json}, Option.Rel (ReadAlike r) e e' →
      Option.Rel (QueriedAlike r) (e.map exprQuery) (e'.map exprQuery) := by
    refine fun he ↦ rel_map he fun e e' h ↦ ?_
    rw [QueriedAlike, queryReferences_exprQuery, queryReferences_exprQuery]
    exact h
  simp only [conditionQuery, Option.bind_eq_bind, ← hc.fieldName?_eq, ← hc.operator_eq, ← hlists]
  cases c.fieldName? with
  | none => exact .none
  | some field =>
    cases hop : c.operator with
    | none => exact .none
    | some op =>
      have hoperand := hc.operand
      rw [hop] at hoperand
      have hbase := queriedAlike_baseQuery (g := g) hs ht hrs hrt hoperand helement field
      simp only [Option.bind_some]
      cases g.resolver.classify field with
      | list v l =>
        simp only
        split
        · exact queriedAlike_materializedQuery hs ht hrs hrt hc hop v.key l
        · exact hexpr (readAlike_listReferenceExpr halike hop v)
      | base => exact rel_negated hc.isNegated_eq hbase
      | arithmetic v =>
        cases g.resolver.expand? g.readFormula field with
        | none => exact rel_negated hc.isNegated_eq hbase
        | some t =>
          refine rel_bind hoperand.literal? fun v w hv ↦ ?_
          refine rel_bind (readAlike_compareExpr (g := g) Iff.rfl (hv.alike hs ht hrs hrt) _)
            fun e e' he ↦ ?_
          exact rel_negated hc.isNegated_eq (hexpr (.some he))

end Conditions

section Blocks

private theorem queryReferences_combine (logic : Logic) (parts : List Json) :
    (logic.combine parts).toList.flatMap queryReferences = parts.flatMap queryReferences := by
  match parts with
  | [] | [_] => rfl
  | q :: q' :: rest =>
    have hcombine : logic.combine (q :: q' :: rest) =
        some (.single logic.key (.arr (q :: q' :: rest))) := rfl
    rw [hcombine, Option.toList_some, List.flatMap_singleton,
      queryReferences_branches (by cases logic <;> decide)]

/-- Related queries in lists refer alike. -/
theorem mem_flatMap_queryReferences_iff {queries queries' : List Json}
    (h : List.Forall₂ (QueriedAlike r) queries queries') :
    r ∈ queries.flatMap queryReferences ↔ r ∈ queries'.flatMap queryReferences := by
  induction h with
  | nil => rfl
  | cons hq _ ih =>
    rw [List.flatMap_cons, List.flatMap_cons, List.mem_append, List.mem_append]
    exact or_congr hq ih

private theorem notMem_queryReferences_negated {blocks : List (String × Block)}
    (hnames : ∀ n ∈ blocks, r ≠ "$" ++ n.1) (b : Block) :
    r ∉ ((blocks.find? (·.2.same b)).map fun (name, _) ↦
      Json.single name (.bool false)).toList.flatMap queryReferences := by
  cases hfind : blocks.find? (·.2.same b) with
  | none => simp
  | some n =>
    have hr := hnames n (List.mem_of_find?_eq_some hfind)
    simp only [Option.map_some, Option.toList_some, List.flatMap_singleton, single,
      queryReferences, testReferences, branchReferences, List.append_nil]
    split
    · simp
    · split <;> simp [hr]

/-- With either of two projections, conditions with replaced literals refer alike in the match, and
no negated block refers to the string. -/
structure RefersAlike (g : Generator) (r s t : String) (p p' : Projection) : Prop where
  condition : ∀ c c', c.Rel (Replaces s t) c' → Option.Rel (QueriedAlike r)
    (g.conditionQuery p c (g.operandExpr .document c))
    (g.conditionQuery p' c' (g.operandExpr .document c'))
  negated : ∀ n ∈ p.blocks, r ≠ "$" ++ n.1
  negated' : ∀ n ∈ p'.blocks, r ≠ "$" ++ n.1

variable {p p' : Projection}

/-- Texts that are no reference, and projections that compute the same list variables, make
conditions refer alike. -/
theorem refersAlike_of_lists_eq (hs : s ≠ "") (ht : t ≠ "") (hrs : r ∉ (Json.str s).references)
    (hrt : r ∉ (Json.str t).references) (hlists : p.lists = p'.lists)
    (hnames : ∀ n ∈ p.blocks, r ≠ "$" ++ n.1) (hnames' : ∀ n ∈ p'.blocks, r ≠ "$" ++ n.1) :
    g.RefersAlike r s t p p' where
  condition _ _ hc := queriedAlike_conditionQuery hs ht hrs hrt hlists hc
    (readAlike_operandExpr (hc.mono fun _ _ _ hv ↦ hv.alike hs ht hrs hrt))
  negated := hnames
  negated' := hnames'

mutual

/-- A block with replaced literals refers as before, the fields of negated blocks aside. -/
theorem mem_queryReferences_block_iff (hg : g.RefersAlike r s t p p') : (b : Block) →
    ∀ b', b.Rel (Replaces s t) b' →
    (r ∈ (g.blockQuery p b).toList.flatMap queryReferences ↔
      r ∈ (g.blockQuery p' b').toList.flatMap queryReferences)
  | ⟨_, _, children, _, _⟩, _, hb@(.mk h) => by
    simp only [blockQuery, ← hb.isNegatedNamed_eq]
    split
    · exact iff_of_false (notMem_queryReferences_negated hg.negated _)
        (notMem_queryReferences_negated hg.negated' _)
    · rw [queryReferences_combine, queryReferences_combine]
      exact mem_queryReferences_nodes_iff hg children _ h

/-- Nodes with replaced literals refer as before, the fields of negated blocks aside. -/
theorem mem_queryReferences_nodes_iff (hg : g.RefersAlike r s t p p') : (nodes : List Node) →
    ∀ nodes', List.Forall₂ (Node.Rel (Replaces s t)) nodes nodes' →
    (r ∈ (g.nodeQueries p nodes).flatMap queryReferences ↔
      r ∈ (g.nodeQueries p' nodes').flatMap queryReferences)
  | [], _, .nil => Iff.rfl
  | .block b :: rest, _, .cons (.block h) hrest => by
    rw [nodeQueries_block, nodeQueries_block, List.flatMap_append, List.flatMap_append,
      List.mem_append, List.mem_append]
    exact or_congr (mem_queryReferences_block_iff hg b _ h)
      (mem_queryReferences_nodes_iff hg rest _ hrest)
  | .condition c :: rest, _, .cons (.condition h) hrest => by
    rw [nodeQueries_condition, nodeQueries_condition, List.flatMap_append, List.flatMap_append,
      List.mem_append, List.mem_append]
    exact or_congr (mem_flatMap_queryReferences_iff (forall₂_toList (hg.condition c _ h)))
      (mem_queryReferences_nodes_iff hg rest _ hrest)

end

end Blocks

end Generator
end FilterPipeline
