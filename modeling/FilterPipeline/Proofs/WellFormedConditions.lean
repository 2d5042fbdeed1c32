import FilterPipeline.Proofs.References
import FilterPipeline.Proofs.Traversal
import FilterPipeline.Proofs.UsedNames
import FilterPipeline.Proofs.WellFormedValues

/-!
# What conditions are compiled to is well formed

The compiler does not look at the shape of what it emits. Main statements: where the literals of
conditions have the kind that their operators take, and no field begins with a dollar sign, both
forms of a block are well formed, however deep list variables are written out.
-/

namespace FilterPipeline

open Fragment Json

/-- What a condition compares with is of the kind that its operator takes: its field begins with no
dollar sign and has a literal if it is a variable, and its literals are numbers and texts where they
are looked at. -/
structure Condition.IsWellTyped (r : Resolver) (c : Condition) : Prop where
  field : ∀ field ∈ c.fieldName?, beginsWith "$" field = false
  literal : ∀ op ∈ c.operator, ∀ v ∈ c.operand.literal?, op.takes v = true
  list : ∀ d ∈ c.operand.list?, d.IsWellTyped
  named : ∀ field ∈ c.fieldName?, (r.classify field).isBase = false →
    c.operand.literal?.isSome = true

/-- Whether a condition is well typed is decided by its field and its literals. -/
instance (r : Resolver) (c : Condition) : Decidable (c.IsWellTyped r) :=
  decidable_of_iff ((∀ field ∈ c.fieldName?, beginsWith "$" field = false) ∧
      (∀ op ∈ c.operator, ∀ v ∈ c.operand.literal?, op.takes v = true) ∧
      (∀ d ∈ c.operand.list?, d.IsWellTyped) ∧
      ∀ field ∈ c.fieldName?, (r.classify field).isBase = false →
        c.operand.literal?.isSome = true)
    ⟨fun ⟨h, h', h'', h'''⟩ ↦ ⟨h, h', h'', h'''⟩, fun ⟨h, h', h'', h'''⟩ ↦ ⟨h, h', h'', h'''⟩⟩

namespace Json

/-- The keys that the checker looks at begin with a dollar sign. -/
theorem isFreeKey_of_beginsWith {key : String} (hne : key ≠ "") (h : beginsWith "$" key = false) :
    IsFreeKey key := by
  refine ⟨hne, fun hmem ↦ ?_⟩
  have hall : ∀ key ∈ Issue.checkedKeys, beginsWith "$" key = true := by decide
  rw [hall key hmem] at h
  cases h

private theorem isFreeKey_below (path sub : String) : IsFreeKey (path ++ "." ++ sub) := by
  have hdot : '.' ∈ (path ++ "." ++ sub).toList := by simp
  refine ⟨fun hempty ↦ ?_, fun hmem ↦ ?_⟩
  · rw [hempty] at hdot
    cases hdot
  · have hall : ∀ key ∈ Issue.checkedKeys, HasNoDot key := by decide
    exact hall _ hmem hdot

/-- What is left of a text without its blanks is no key that the checker looks at, if it begins with
no dollar sign. -/
theorem isFreeKey_of_trimmed? {s path : String} (hs : Text.trimmed? s = some path)
    (h : beginsWith "$" path = false) : IsFreeKey path :=
  isFreeKey_of_beginsWith (Text.subset_of_trimmed? hs).1 h

/-- A text without blanks at its ends stays what it is when they are dropped. -/
theorem IsFreeKey.of_trimmed? {s t : String} (h : IsFreeKey t) (hs : Text.trimmed? s = some t) :
    ∀ path ∈ Text.trimmed? t, IsFreeKey path := by
  rw [Text.trimmed?_of_trimmed? hs]
  rintro _ ⟨⟩
  exact h

end Json

/-- The field of a well-typed condition is no key that the checker looks at. -/
theorem Condition.IsWellTyped.isFreeKey {r : Resolver} {c : Condition} (h : c.IsWellTyped r)
    {field : String} (hf : c.fieldName? = some field) : IsFreeKey field := by
  obtain ⟨s, -, hs⟩ := Option.bind_eq_some_iff.mp hf
  exact isFreeKey_of_trimmed? hs (h.field field hf)

/-- The array of a well-typed list condition is no key that the checker looks at. -/
theorem ListCondition.IsWellTyped.isFreeKey {d : ListCondition} (h : d.IsWellTyped)
    {path : String} (hp : d.arrayPath? = some path) : IsFreeKey path :=
  isFreeKey_of_trimmed? hp (h.array path hp)

/-- A formula is well formed as an expression if what its leaves are written out by is. -/
theorem Formula.isWellFormed_renderWith {leaf : String → Option Json} {scope : FieldScope}
    (h : ∀ path, ∀ e ∈ leaf path, e.IsWellFormed) (t : Formula) :
    (t.renderWith leaf scope).IsWellFormed := by
  induction t with
  | number x => exact isWellFormed_ofDouble x
  | field path =>
    rw [renderWith]
    cases hleaf : leaf path with
    | none => exact isWellFormed_str _
    | some e => exact h path e hleaf
  | binary op left right ihleft ihright =>
    exact IsFreeKey.single (by cases op <;> decide) (isWellFormed_pair ihleft ihright)
  | call f arg ih => exact IsFreeKey.single (by cases f <;> decide) ih
  | negate arg ih =>
    exact IsFreeKey.single (by decide) (isWellFormed_pair (isWellFormed_int _) ih)

namespace Generator

/-- The list variables of the catalog are well typed, and what their element predicates are written
out by is well formed. -/
structure IsWellFormed (g : Generator) : Prop where
  lists : ∀ v ∈ g.resolver.catalog.lists, v.condition.IsWellTyped
  definition : ∀ v ∈ g.resolver.catalog.lists, ∀ e ∈ g.definition v, e.IsWellFormed

variable {g : Generator} {p : Projection} {scope : Scope} {field : String} {op : Operator}
  {type : Option FieldType} {c : Condition} {element : Option Json} {lhs v e q : Json}

section Expressions

private theorem isWellFormed_bound (k : Comparison) (hlhs : lhs.IsWellFormed)
    (hv : v.isScalar = true) : (single k.key (.arr [lhs, v])).IsWellFormed :=
  isWellFormed_comparison k hlhs (isWellFormed_of_isScalar hv) (.inr hv)

private theorem isWellFormed_inList (hlhs : lhs.IsWellFormed) (hv : Operator.oneOf.takes v = true) :
    (single "$in" (.arr [lhs, v.wrapList])).IsWellFormed := by
  obtain ⟨items, hitems, hwell⟩ := exists_wrapList_eq hv
  rw [hitems]
  apply isWellFormed_membership (.inl rfl)
  exact List.forall_mem_cons.mpr
    ⟨hlhs, List.forall_mem_singleton.mpr (isWellFormed_arr_iff.mpr hwell)⟩

private theorem isWellFormed_regexExpr (hlhs : lhs.IsWellFormed) (pattern : String) :
    (g.regexExpr lhs pattern).IsWellFormed := by
  apply IsFreeKey.single (by decide)
  refine isWellFormed_obj_cons (IsFreeKey.isWellFormedMember (by decide) hlhs) ?_
  exact List.forall_mem_cons.mpr ⟨isWellFormedMember_str "options" _ (by decide),
    List.forall_mem_singleton.mpr (isWellFormedMember_str "regex" _ (by decide))⟩

/-- A comparison of an expression is well formed. Only references are compared with truth values. -/
theorem isWellFormed_compareExpr (hlhs : lhs.IsWellFormed) (hv : op.takes v = true)
    (htype : lhs.isScalar = true ∨ type ≠ some .boolean)
    (he : g.compareExpr lhs op v type = some e) : e.IsWellFormed := by
  cases op with
  | compare k =>
    cases he
    rcases isScalar_coerceFor (isScalar_of_isLiteral hv) type with hw | ⟨rfl, b, hw⟩
    · exact isWellFormed_bound k hlhs hw
    · rw [hw]
      exact isWellFormed_comparison k hlhs (isWellFormed_bool b) (htype.imp_right (absurd rfl))
  | oneOf =>
    cases he
    exact isWellFormed_inList hlhs hv
  | noneOf =>
    cases he
    exact isWellFormed_negateExpr (isWellFormed_inList hlhs hv)
  | regex | contains | startsWith | endsWith =>
    cases he
    exact isWellFormed_regexExpr hlhs _
  | present =>
    cases he
    exact IsFreeKey.single (by split <;> decide)
      (isWellFormed_pair (IsFreeKey.single (by decide) hlhs) (isWellFormed_str _))
  | isNumber =>
    cases he
    exact IsFreeKey.single (by decide) hlhs
  | between =>
    obtain ⟨⟨low, high⟩, hr, he⟩ := Option.bind_eq_some_iff.mp he
    cases he
    obtain ⟨hlow, hhigh⟩ := isScalar_of_rangeBounds? hv hr
    exact IsFreeKey.single (by decide)
      (isWellFormed_pair (isWellFormed_bound .gte hlhs hlow) (isWellFormed_bound .lte hlhs hhigh))
  | notBetween =>
    obtain ⟨⟨low, high⟩, hr, he⟩ := Option.bind_eq_some_iff.mp he
    cases he
    obtain ⟨hlow, hhigh⟩ := isScalar_of_rangeBounds? hv hr
    exact IsFreeKey.single (by decide)
      (isWellFormed_pair (isWellFormed_bound .lt hlhs hlow) (isWellFormed_bound .gt hlhs hhigh))
  | longerThan =>
    obtain ⟨n, hn, he⟩ := Option.bind_eq_some_iff.mp he
    cases he
    split
    · exact isWellFormed_bool true
    · exact isWellFormed_bound .gt (isWellFormed_sizeOfArray hlhs)
        (isScalar_ofDouble (isFinite_of_number? hv hn))
  | shorterThan =>
    obtain ⟨n, hn, he⟩ := Option.bind_eq_some_iff.mp he
    cases he
    split
    · exact isWellFormed_bool false
    · exact isWellFormed_bound .lt (isWellFormed_sizeOfArray hlhs)
        (isScalar_ofDouble (isFinite_of_number? hv hn))
  | list l => cases he

/-- The question of a list variable of the catalog is well formed. -/
theorem IsWellFormed.variableQuery (hg : g.IsWellFormed) {w : ListVariable}
    (hw : w ∈ g.resolver.catalog.lists) {q : ListQuery} (hq : g.variableQuery? w = some q) :
    q.IsWellFormed := by
  refine ListQuery.isWellFormed_ofListCondition? (hg.lists w hw) (fun e he ↦ ?_) hq
  split at he
  · exact hg.definition w hw e he
  · cases he

/-- What a name refers to is a list variable of the catalog, if it is one. -/
theorem mem_lists_of_classify {r : Resolver} {name : String} {w : ListVariable} {l : ListOperator}
    (h : r.classify name = .list w l) : w ∈ r.catalog.lists :=
  Catalog.mem_of_list? (Resolver.classify_eq_list_iff.mp h).1

/-- A well-typed condition on a variable has a literal that its operator takes. -/
theorem exists_literal (hc : c.IsWellTyped g.resolver) (hf : c.fieldName? = some field)
    (ho : c.operator = some op) (hv : (g.resolver.classify field).isBase = false) :
    ∃ v, c.operand.literal? = some v ∧ op.takes v = true := by
  obtain ⟨v, hliteral⟩ := Option.isSome_iff_exists.mp (hc.named field hf hv)
  exact ⟨v, hliteral, hc.literal op ho v hliteral⟩

private theorem isWellFormed_switched {negate : Json → Json}
    (hnegate : ∀ a : Json, a.IsWellFormed → (negate a).IsWellFormed) (negated : Bool)
    (he : e.IsWellFormed) : (if negated then negate e else e).IsWellFormed := by
  split
  · exact hnegate e he
  · exact he

private theorem isWellFormed_of_bind {fragment : Option Json} {negate : Json → Json}
    {negated : Bool} (hnegate : ∀ a : Json, a.IsWellFormed → (negate a).IsWellFormed)
    (h : ∀ a, fragment = some a → a.IsWellFormed)
    (he : (fragment.bind fun a ↦ some (if negated then negate a else a)) = some e) :
    e.IsWellFormed := by
  obtain ⟨a, ha, he⟩ := Option.bind_eq_some_iff.mp he
  cases he
  exact isWellFormed_switched hnegate negated (h a ha)

/-- A condition on a list variable that is written out is well formed. -/
theorem isWellFormed_listReferenceExpr (hg : g.IsWellFormed) {w : ListVariable}
    (hw : w ∈ g.resolver.catalog.lists) (hv : c.operand.literal? = some v)
    (htakes : op.takes v = true) (he : g.listReferenceExpr c op w = some e) : e.IsWellFormed := by
  simp only [listReferenceExpr, hv, Option.getD_some, Option.bind_eq_bind,
    Option.bind_eq_some_iff] at he
  obtain ⟨q, hq, he⟩ := he
  have hwell := hg.variableQuery hw hq
  split at he
  · cases he
    have hquantifier := isWellFormed_switched (fun _ ↦ isWellFormed_negateExpr)
      (c.asksForFalse op) hwell.quantifierExpr
    split
    · exact hquantifier
    · exact isWellFormed_negateExpr hquantifier
  · exact isWellFormed_of_bind (fun _ ↦ isWellFormed_negateExpr) (fun _ ↦ isWellFormed_compareExpr
      ListQuery.isWellFormed_aggregateExpr htakes (.inr (by decide))) he
  · refine isWellFormed_of_bind (fun _ ↦ isWellFormed_negateExpr) (fun a ha ↦ ?_) he
    have hcompare : g.compareExpr q.filteredExpr op v (some .array) = some a → a.IsWellFormed :=
      isWellFormed_compareExpr hwell.filteredExpr htakes (.inr (by decide))
    unfold arrayExpr at ha
    split at ha
    · exact hcompare ha
    · exact hcompare ha
    · exact hcompare ha
    · cases ha
      exact isWellFormed_bound .gt (isWellFormed_sizeOfArray hwell.filteredExpr) rfl

private theorem isWellFormed_formulaExpr (t : Formula) : (g.formulaExpr scope t).IsWellFormed := by
  refine Formula.isWellFormed_renderWith (fun path e he ↦ ?_) t
  split at he
  · next w a hw =>
    obtain ⟨q, -, rfl⟩ := Option.map_eq_some_iff.mp he
    exact ListQuery.isWellFormed_aggregateExpr
  · cases he

/-- The literal of a question that stands on a condition is null, a number or a text. -/
theorem isWellFormed_ofCondition (hc : c.IsWellTyped g.resolver) {l : ListOperator}
    (ho : c.operator = some (.list l)) (helement : ∀ e ∈ element, e.IsWellFormed) :
    (ListQuery.ofCondition field l c.operand scope element).IsWellFormed :=
  ⟨helement, fun v hv ↦ hc.literal _ ho v hv, fun v hv ↦ by cases hv⟩

private theorem isWellFormed_baseExpr (hc : c.IsWellTyped g.resolver) (ho : c.operator = some op)
    (helement : ∀ e ∈ element, e.IsWellFormed)
    (he : g.baseExpr scope field op c.operand element = some e) : e.IsWellFormed := by
  unfold baseExpr at he
  split at he
  · next d hd =>
    obtain ⟨q, hq, rfl⟩ := Option.map_eq_some_iff.mp he
    have hd : d.IsWellTyped := hc.list d (by rw [hd]; rfl)
    exact (ListQuery.isWellFormed_ofListCondition? hd helement hq).predicate_toExpr
  · cases he
    exact (isWellFormed_ofCondition hc ho helement).predicate_toExpr
  · obtain ⟨v, hv, he⟩ := Option.bind_eq_some_iff.mp he
    exact isWellFormed_compareExpr (isWellFormed_str _) (hc.literal _ ho v hv) (.inl rfl) he

private theorem isWellFormed_conditionExpr (hg : g.IsWellFormed) (hc : c.IsWellTyped g.resolver)
    (helement : ∀ e, element = some e → e.IsWellFormed)
    (he : g.conditionExpr scope c element = some e) : e.IsWellFormed := by
  simp only [conditionExpr, Option.bind_eq_bind, Option.bind_eq_some_iff] at he
  obtain ⟨field, hf, op, ho, he⟩ := he
  have hbase : ∀ a, g.baseExpr scope field op c.operand element = some a → a.IsWellFormed :=
    fun a ↦ isWellFormed_baseExpr hc ho helement
  split at he
  · next w l hw =>
    obtain ⟨v, hv, htakes⟩ := exists_literal hc hf ho (by rw [hw]; rfl)
    exact isWellFormed_listReferenceExpr hg (mem_lists_of_classify hw) hv htakes he
  · next w hw =>
    obtain ⟨v, hv, htakes⟩ := exists_literal hc hf ho (by rw [hw]; rfl)
    simp only [hv, Option.bind_some] at he
    split at he
    · exact isWellFormed_of_bind (fun _ ↦ isWellFormed_negateExpr) (fun _ ↦
        isWellFormed_compareExpr (isWellFormed_formulaExpr _) htakes (.inr (by decide))) he
    · exact isWellFormed_of_bind (fun _ ↦ isWellFormed_negateExpr) hbase he
  · exact isWellFormed_of_bind (fun _ ↦ isWellFormed_negateExpr) hbase he

/-- Well-formedness is kept when expressions are put together. -/
theorem IsWellFormed.exprInvariant (hg : g.IsWellFormed) :
    g.ExprInvariant (fun _ ↦ True) (Condition.IsWellTyped g.resolver) Json.IsWellFormed where
  scope _ := trivial
  negate _ := isWellFormed_negateExpr
  combine logic _ hparts :=
    IsFreeKey.single (by cases logic <;> decide) (isWellFormed_arr_iff.mpr hparts)
  condition _ _ _ _ _ hc helement he := isWellFormed_conditionExpr hg hc helement he

/-- Where the catalog is well typed, its list variables are written out by well-formed expressions,
however many levels deep. -/
theorem isWellFormed_definitionAt (hlists : ∀ v ∈ g.resolver.catalog.lists, v.condition.IsWellTyped)
    (hconditions : ∀ v ∈ g.resolver.catalog.lists,
      ∀ c ∈ (Operand.list v.condition).elementConditions, c.IsWellTyped g.resolver)
    (levels : Nat) : { g with definition := g.definitionAt levels }.IsWellFormed := by
  induction levels with
  | zero => exact ⟨hlists, fun v _ e he ↦ by cases he⟩
  | succ levels ih =>
    refine ⟨hlists, fun v hv e he ↦ ?_⟩
    exact ih.exprInvariant.element (.list v.condition) (hconditions v hv) e he

end Expressions

section Queries

private theorem isWellFormed_regexTest (pattern : String) : (g.regexTest pattern).IsWellFormed :=
  isWellFormed_obj_cons (isWellFormedMember_str "$options" _ (by decide))
    (List.forall_mem_singleton.mpr (isWellFormedMember_str "$regex" _ (by decide)))

/-- A comparison of a field is well formed. -/
theorem isWellFormed_compareQuery (hfield : IsFreeKey field) (hv : op.takes v = true)
    (hq : g.compareQuery field op v type = some q) : q.IsWellFormed := by
  cases op with
  | compare k =>
    have hvalue := isScalar_coerceFor (isScalar_of_isLiteral hv) type
    have htest : (single k.key (v.coerceFor type)).IsWellFormed :=
      isWellFormed_test k (hvalue.imp_right And.right)
    have hone : ∀ item ∈ [v.coerceFor type], item.IsWellFormed :=
      List.forall_mem_singleton.mpr (isWellFormed_single_iff.mp htest).value
    cases k with
    | eq =>
      simp only [compareQuery] at hq
      split at hq
      · cases hq
        exact hfield.single (isWellFormed_membership (.inl rfl) hone)
      · cases hq
        exact hfield.single htest
    | ne =>
      simp only [compareQuery] at hq
      split at hq
      · cases hq
        exact hfield.single (isWellFormed_membership (.inr rfl) hone)
      · cases hq
        exact hfield.single htest
    | gt | gte | lt | lte =>
      cases hq
      exact hfield.single htest
  | oneOf =>
    obtain ⟨items, hitems, hwell⟩ := exists_wrapList_eq hv
    cases hq
    rw [hitems]
    exact hfield.single (isWellFormed_membership (.inl rfl) hwell)
  | noneOf =>
    obtain ⟨items, hitems, hwell⟩ := exists_wrapList_eq hv
    cases hq
    rw [hitems]
    exact hfield.single (isWellFormed_membership (.inr rfl) hwell)
  | regex | contains | startsWith | endsWith =>
    cases hq
    exact hfield.single (isWellFormed_regexTest _)
  | present =>
    cases hq
    exact hfield.single (IsFreeKey.single (by decide) (isWellFormed_bool _))
  | isNumber =>
    cases hq
    exact isWellFormed_exprQuery (IsFreeKey.single (by decide) (isWellFormed_str _))
  | between =>
    obtain ⟨⟨low, high⟩, hr, hq⟩ := Option.bind_eq_some_iff.mp hq
    cases hq
    obtain ⟨hlow, hhigh⟩ := isScalar_of_rangeBounds? hv hr
    have hlow := isWellFormed_single_iff.mp (isWellFormed_test .gte (.inl hlow))
    have hhigh := isWellFormed_single_iff.mp (isWellFormed_test .lte (.inl hhigh))
    exact hfield.single (isWellFormed_obj_cons hlow (List.forall_mem_singleton.mpr hhigh))
  | notBetween =>
    obtain ⟨⟨low, high⟩, hr, hq⟩ := Option.bind_eq_some_iff.mp hq
    cases hq
    obtain ⟨hlow, hhigh⟩ := isScalar_of_rangeBounds? hv hr
    exact IsFreeKey.single (by decide)
      (isWellFormed_pair (hfield.single (isWellFormed_test .lt (.inl hlow)))
        (hfield.single (isWellFormed_test .gt (.inl hhigh))))
  | longerThan | shorterThan =>
    obtain ⟨n, -, hq⟩ := Option.bind_eq_some_iff.mp hq
    split at hq
    · cases hq
      exact isWellFormed_exprQuery (isWellFormed_bool _)
    · cases hq
      exact (isFreeKey_below field _).single
        (IsFreeKey.single (by decide) (isWellFormed_bool _))
  | list l => cases hq

private theorem isWellFormed_baseQuery (hc : c.IsWellTyped g.resolver) (hfield : IsFreeKey field)
    (ho : c.operator = some op) (helement : ∀ e ∈ element, e.IsWellFormed)
    (hq : g.baseQuery field op c.operand element = some q) : q.IsWellFormed := by
  unfold baseQuery at hq
  split at hq
  · next d hd =>
    obtain ⟨query, hquery, rfl⟩ := Option.map_eq_some_iff.mp hq
    have hd : d.IsWellTyped := hc.list d (by rw [hd]; rfl)
    refine (ListQuery.isWellFormed_ofListCondition? hd helement hquery).predicate_toQuery ?_
    simp only [ListQuery.ofListCondition?, Option.bind_eq_bind, Option.bind_eq_some_iff] at hquery
    obtain ⟨l, -, path, hpath, hquery⟩ := hquery
    cases hquery
    exact hd.isFreeKey hpath
  · cases hq
    exact (isWellFormed_ofCondition hc ho helement).predicate_toQuery hfield
  · obtain ⟨v, hv, hq⟩ := Option.bind_eq_some_iff.mp hq
    exact isWellFormed_compareQuery hfield (hc.literal _ ho v hv) hq

private theorem isWellFormed_materializedQuery {name : String} (hname : IsFreeKey name)
    {l : ListOperator} (hv : c.operand.literal? = some v) (htakes : op.takes v = true)
    (hq : g.materializedQuery c op name l = some q) : q.IsWellFormed := by
  have hcompare : ∀ type a, g.compareQuery name op v type = some a → a.IsWellFormed :=
    fun _ _ ↦ isWellFormed_compareQuery hname htakes
  simp only [materializedQuery, hv, Option.getD_some, Option.bind_eq_bind] at hq
  split at hq
  · exact isWellFormed_of_bind (fun _ ↦ isWellFormed_negateQuery) (hcompare _) hq
  · exact isWellFormed_of_bind (fun _ ↦ isWellFormed_negateQuery) (hcompare _) hq
  · exact isWellFormed_of_bind (fun _ ↦ isWellFormed_negateQuery) (hcompare _) hq
  · refine isWellFormed_of_bind (fun _ ↦ isWellFormed_negateQuery) (fun a ha ↦ ?_) hq
    cases ha
    exact isWellFormed_exprQuery (isWellFormed_bound .gt
      (isWellFormed_sizeOfArray (isWellFormed_str _)) rfl)
  · exact isWellFormed_of_bind (fun _ ↦ isWellFormed_negateQuery) (hcompare _) hq

private theorem isWellFormed_conditionQuery (hg : g.IsWellFormed) (hc : c.IsWellTyped g.resolver)
    (helement : ∀ e, element = some e → e.IsWellFormed)
    (hq : g.conditionQuery p c element = some q) : q.IsWellFormed := by
  simp only [conditionQuery, Option.bind_eq_bind, Option.bind_eq_some_iff] at hq
  obtain ⟨field, hf, op, ho, hq⟩ := hq
  have hfield := hc.isFreeKey hf
  have hbase : ∀ a, g.baseQuery field op c.operand element = some a → a.IsWellFormed :=
    fun a ↦ isWellFormed_baseQuery hc hfield ho helement
  split at hq
  · next w l hw =>
    obtain ⟨v, hv, htakes⟩ := exists_literal hc hf ho (by rw [hw]; rfl)
    split at hq
    · have hkey : w.key = field := Catalog.key_of_list? (Resolver.classify_eq_list_iff.mp hw).1
      exact isWellFormed_materializedQuery (hkey ▸ hfield) hv htakes hq
    · obtain ⟨e, he, rfl⟩ := Option.map_eq_some_iff.mp hq
      exact isWellFormed_exprQuery
        (isWellFormed_listReferenceExpr hg (mem_lists_of_classify hw) hv htakes he)
  · next w hw =>
    obtain ⟨v, hv, htakes⟩ := exists_literal hc hf ho (by rw [hw]; rfl)
    simp only [hv, Option.bind_some] at hq
    split at hq
    · next t _ =>
      obtain ⟨e, he, hq⟩ := Option.bind_eq_some_iff.mp hq
      cases hq
      have hrender : (t.render .document).IsWellFormed :=
        Formula.isWellFormed_renderWith (fun _ _ h ↦ by cases h) t
      exact isWellFormed_switched (fun _ ↦ isWellFormed_negateQuery) c.isNegated
        (isWellFormed_exprQuery (isWellFormed_compareExpr hrender htakes (.inr (by decide)) he))
    · exact isWellFormed_of_bind (fun _ ↦ isWellFormed_negateQuery) hbase hq
  · exact isWellFormed_of_bind (fun _ ↦ isWellFormed_negateQuery) hbase hq

/-- Well-formedness is kept when queries are put together. -/
theorem IsWellFormed.queryInvariant (hg : g.IsWellFormed)
    (hblocks : ∀ n ∈ p.blocks, IsFreeKey n.1) :
    g.QueryInvariant p (fun c ↦ ∀ c' ∈ c :: c.operand.elementConditions, c'.IsWellTyped g.resolver)
      Json.IsWellFormed where
  negated n hn := (hblocks n hn).single (isWellFormed_bool _)
  combine logic _ hparts :=
    IsFreeKey.single (by cases logic <;> decide) (isWellFormed_arr_iff.mpr hparts)
  condition c q hc hq := by
    rw [List.forall_mem_cons] at hc
    refine isWellFormed_conditionQuery hg hc.1 (fun e he ↦ ?_) hq
    simp only [operandExpr] at he
    split at he
    · exact hg.exprInvariant.element c.operand hc.2 e he
    · cases he

end Queries

end Generator
end FilterPipeline
