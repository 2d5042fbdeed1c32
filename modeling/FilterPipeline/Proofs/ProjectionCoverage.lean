import FilterPipeline.Proofs.ProjectionKeys
import FilterPipeline.Proofs.References
import FilterPipeline.Proofs.Traversal
import FilterPipeline.Proofs.Unrolling

/-!
# The projection keeps what the match reads

Which paths the projection keeps is decided by a walk over the filter that knows nothing of how the
match is compiled. Main statement: whatever path the match of a filter reads, the projection has
that path or one that leads to it. Filters that name arithmetic variables, and texts that look like
references, are left aside.
-/

namespace FilterPipeline

open Relation Fragment Json

/-- Whether a name refers to an arithmetic variable. -/
def FieldKind.isArithmetic : FieldKind → Bool
  | arithmetic _ => true
  | _ => false

/-- What a condition mentions is plain: its field begins with no dollar sign and is no arithmetic
variable, and its literals and its list condition look like no reference. -/
structure Condition.IsPlain (r : Resolver) (c : Condition) : Prop where
  field : ∀ field ∈ c.fieldName?, beginsWith "$" field = false
  notArithmetic : ∀ field ∈ c.fieldName?, (r.classify field).isArithmetic = false
  literal : ∀ v ∈ c.operand.literal?, v.IsPlain
  list : ∀ d ∈ c.operand.list?, d.IsPlain

/-- Whether a condition is plain is decided by its field and its literals. -/
instance (r : Resolver) (c : Condition) : Decidable (c.IsPlain r) :=
  decidable_of_iff ((∀ field ∈ c.fieldName?, beginsWith "$" field = false) ∧
      (∀ field ∈ c.fieldName?, (r.classify field).isArithmetic = false) ∧
      (∀ v ∈ c.operand.literal?, v.IsPlain) ∧ ∀ d ∈ c.operand.list?, d.IsPlain)
    ⟨fun ⟨h, h', h'', h'''⟩ ↦ ⟨h, h', h'', h'''⟩, fun ⟨h, h', h'', h'''⟩ ↦ ⟨h, h', h'', h'''⟩⟩

private theorem elementConditions_list (d : ListCondition) :
    (Operand.list d).elementConditions = d.operand.elementConditions := by
  cases d
  simp only [Operand.elementConditions]

namespace Generator

/-- What writing out a list variable reads has some property. -/
structure VariableReads (g : Generator) (P : String → Prop) (v : ListVariable) : Prop where
  plain : v.condition.IsPlain
  array : ∀ path, v.condition.arrayPath? = some path → P path
  definition : ∀ e, g.definition v = some e → e.ExprReads P

/-- A condition of an element predicate is plain and reads, by way of the list variable that it is
about, nothing but paths with some property. -/
structure ElementReads (g : Generator) (P : String → Prop) (c : Condition) : Prop where
  plain : c.IsPlain g.resolver
  listed : ∀ field v op, c.fieldName? = some field → g.resolver.classify field = .list v op →
    g.VariableReads P v

section Expressions

variable {g : Generator} {P : String → Prop}

/-- A comparison reads what is compared. -/
theorem compareExpr_reads {lhs v e : Json} {op : Operator} {type : Option FieldType}
    (hlhs : lhs.ExprReads P) (hv : v.IsPlain) (he : g.compareExpr lhs op v type = some e) :
    e.ExprReads P := by
  have hregex : ∀ pattern, (g.regexExpr lhs pattern).ExprReads P := by
    intro pattern
    rw [regexExpr, exprReads_regexMatch_iff]
    exact hlhs
  have hmissing : rootPath? "missing" = none := by decide
  cases op with
  | compare c =>
    cases he
    rw [exprReads_single_iff (by cases c <;> decide)]
    simp [hlhs, (hv.coerceFor type).exprReads]
  | oneOf | noneOf =>
    cases he
    simp [hlhs, hv.wrapList.exprReads]
  | regex | contains | startsWith | endsWith =>
    cases he
    exact hregex _
  | present =>
    cases he
    rw [exprReads_single_iff (by split <;> decide)]
    simp [hlhs, hmissing]
  | isNumber =>
    cases he
    simp [hlhs]
  | between | notBetween =>
    simp only [compareExpr, Option.bind_eq_bind, Option.bind_eq_some_iff] at he
    obtain ⟨⟨low, high⟩, hr, he⟩ := he
    cases he
    obtain ⟨hlow, hhigh⟩ := hv.rangeBounds hr
    simp [hlhs, hlow.exprReads, hhigh.exprReads]
  | longerThan | shorterThan =>
    simp only [compareExpr, Option.bind_eq_bind, Option.bind_eq_some_iff] at he
    obtain ⟨n, -, he⟩ := he
    cases he
    split
    · exact exprReads_bool
    · simp [hlhs, (isPlain_ofDouble n).exprReads]
  | list l => cases he

private theorem isPlain_getD_null {v : Option Json} (h : ∀ w, v = some w → w.IsPlain) :
    (v.getD .null).IsPlain := by
  cases v with
  | none => simp [Json.IsPlain, strings]
  | some w => exact h w rfl

/-- A condition on a list variable that is written out reads what the variable does. -/
theorem listReferenceExpr_reads {c : Condition} {op : Operator} {v : ListVariable} {e : Json}
    (hsub : ∀ path sub, P path → P (path ++ "." ++ sub))
    (hliteral : ∀ w, c.operand.literal? = some w → w.IsPlain) (hv : g.VariableReads P v)
    (he : g.listReferenceExpr c op v = some e) : e.ExprReads P := by
  simp only [listReferenceExpr, Option.bind_eq_bind, Option.bind_eq_some_iff] at he
  obtain ⟨q, hq, he⟩ := he
  have hreads : q.Reads P := by
    refine ListQuery.reads_ofListCondition? hv.plain (fun path hp _ ↦ hv.array path hp) hsub
      (fun e he ↦ ?_) hq
    split at he
    · exact hv.definition e he
    · cases he
  have hnull := isPlain_getD_null hliteral
  split at he
  · cases he
    split <;> split <;> simp [hreads.quantifierExpr]
  · obtain ⟨a, ha, he⟩ := Option.bind_eq_some_iff.mp he
    have := compareExpr_reads hreads.aggregateExpr hnull ha
    cases he
    split <;> simp [this]
  · obtain ⟨a, ha, he⟩ := Option.bind_eq_some_iff.mp he
    have : a.ExprReads P := by
      unfold arrayExpr at ha
      split at ha
      · exact compareExpr_reads hreads.filteredExpr hnull ha
      · exact compareExpr_reads hreads.filteredExpr hnull ha
      · exact compareExpr_reads hreads.filteredExpr hnull ha
      · cases ha
        simp [hreads.filteredExpr]
    cases he
    split <;> simp [this]

private theorem baseExpr_reads {array field : String} {op : Operator} {operand : Operand}
    {element : Option Json} {e : Json} (hsub : ∀ path sub, P path → P (path ++ "." ++ sub))
    (hfield : beginsWith "$" field = false) (hliteral : ∀ v, operand.literal? = some v → v.IsPlain)
    (hlist : ∀ d, operand.list? = some d → d.IsPlain)
    (helement : ∀ e, element = some e → e.ExprReads P)
    (he : g.baseExpr (.element array) field op operand element = some e) : e.ExprReads P := by
  unfold baseExpr at he
  split at he
  · next d =>
    obtain ⟨q, hq, rfl⟩ := Option.map_eq_some_iff.mp he
    exact (ListQuery.reads_ofListCondition? (hlist d rfl) (fun _ _ h ↦ by cases h) hsub helement
      hq).predicate_toExpr
  · cases he
    exact (ListQuery.reads_ofCondition hfield hliteral (fun h ↦ by cases h) hsub
      helement).predicate_toExpr
  · obtain ⟨v, hv, he⟩ := Option.bind_eq_some_iff.mp he
    refine compareExpr_reads ?_ (hliteral v hv) he
    have h : (Json.str (Scope.reference (.element array) field ++ "")).ExprReads P :=
      Scope.exprReads_reference hfield rfl fun h ↦ by cases h
    simpa using h

private theorem conditionExpr_reads {array : String} {c : Condition} {element : Option Json}
    {e : Json} (hsub : ∀ path sub, P path → P (path ++ "." ++ sub)) (hc : g.ElementReads P c)
    (helement : ∀ e, element = some e → e.ExprReads P)
    (he : g.conditionExpr (.element array) c element = some e) : e.ExprReads P := by
  simp only [conditionExpr, Option.bind_eq_bind, Option.bind_eq_some_iff] at he
  obtain ⟨field, hf, op, -, he⟩ := he
  split at he
  · next v l hv =>
    exact listReferenceExpr_reads hsub hc.plain.literal (hc.listed field v l hf hv) he
  · next v hv =>
    have := hc.plain.notArithmetic field hf
    rw [hv] at this
    cases this
  · obtain ⟨b, hb, he⟩ := Option.bind_eq_some_iff.mp he
    have := baseExpr_reads hsub (hc.plain.field field hf) hc.plain.literal hc.plain.list helement hb
    cases he
    split <;> simp [this]

private theorem exprReads_invariant (hsub : ∀ path sub, P path → P (path ++ "." ++ sub)) :
    g.ExprInvariant (fun scope ↦ ∃ array, scope = .element array) (g.ElementReads P)
      (ExprReads P) where
  scope array := ⟨array, rfl⟩
  negate _ he := exprReads_negateExpr_iff.mpr he
  combine logic parts hparts := by
    rw [exprReads_single_iff (by cases logic <;> decide)]
    exact exprReads_arr hparts
  condition := by
    rintro _ c element e ⟨array, rfl⟩ hc helement he
    exact conditionExpr_reads hsub hc helement he

/-- An element predicate reads what its conditions do. -/
theorem elementExpr_reads {scope : Scope} {field : String}
    (hsub : ∀ path sub, P path → P (path ++ "." ++ sub)) (operand : Operand)
    (h : ∀ c ∈ operand.elementConditions, g.ElementReads P c) :
    ∀ e, g.elementExpr scope field operand = some e → e.ExprReads P :=
  (exprReads_invariant hsub).element operand h

private theorem definitionAt_reads (used : List String)
    (hsub : ∀ path sub, P path → P (path ++ "." ++ sub))
    (hplain : ∀ name ∈ used, ∀ v, g.resolver.catalog.list? name = some v →
      v.condition.IsPlain ∧ ∀ c ∈ v.condition.operand.elementConditions, c.IsPlain g.resolver)
    (harray : ∀ name ∈ used, ∀ path ∈ g.resolver.definitionArrays name, P path)
    (hclosed : ∀ name ∈ used, ∀ b ∈ g.resolver.definitionLists name, b ∈ used) (levels : Nat) :
    ∀ name ∈ used, ∀ v, g.resolver.catalog.list? name = some v →
      ({ g with definition := g.definitionAt levels }).VariableReads P v := by
  induction levels with
  | zero =>
    intro name hn v hv
    refine ⟨(hplain name hn v hv).1, fun path hp ↦ ?_, fun e he ↦ by cases he⟩
    exact harray name hn path (by simp [Resolver.definitionArrays, hv, hp])
  | succ levels ih =>
    intro name hn v hv
    refine ⟨(hplain name hn v hv).1, fun path hp ↦ ?_, fun e he ↦ ?_⟩
    · exact harray name hn path (by simp [Resolver.definitionArrays, hv, hp])
    · refine elementExpr_reads hsub (.list v.condition) (fun c hc ↦ ?_) e he
      rw [elementConditions_list] at hc
      refine ⟨(hplain name hn v hv).2 c hc, fun field w op hf hw ↦ ?_⟩
      have hmem : field ∈ g.resolver.definitionLists name := by
        simp only [Resolver.definitionLists, hv, Option.map_some, Option.getD_some,
          Resolver.elementLists]
        refine List.mem_flatMap.mpr ⟨c, hc, ?_⟩
        have hw : g.resolver.classify field = .list w op := hw
        simp [Resolver.conditionLists, hf, hw]
      exact ih field (hclosed name hn field hmem) w (Resolver.classify_eq_list_iff.mp hw).1

end Expressions

/-- A condition of the match is plain and is about nothing but paths with some property: its field,
its array, the list variable that it names or the field that is computed for that, and what its
element predicate names. -/
structure MatchReads (g : Generator) (P : String → Prop) (p : Projection) (c : Condition) :
    Prop where
  plain : c.IsPlain g.resolver
  base : ∀ field, c.fieldName? = some field → g.resolver.classify field = .base → P field
  array : ∀ d path, c.operand.list? = some d → d.arrayPath? = some path → P path
  listed : ∀ field v op, c.fieldName? = some field → g.resolver.classify field = .list v op →
    g.VariableReads P v
  computed : ∀ field v op, c.fieldName? = some field → g.resolver.classify field = .list v op →
    p.lists.contains v.key = true → P v.key
  elements : ∀ c' ∈ c.operand.elementConditions, g.ElementReads P c'

section Queries

variable {g : Generator} {P : String → Prop}

/-- A test of a path reads that path. -/
theorem queryReads_test {path : String} {test : Json} (h : P path)
    (hplain : beginsWith "$" path = false) : (single path test).QueryReads P := by
  have hne : ∀ key, beginsWith "$" key = true → path ≠ key := by
    rintro key hkey rfl
    rw [hplain] at hkey
    cases hkey
  have h1 := hne "$expr" (by decide)
  have h2 := hne "$and" (by decide)
  have h3 := hne "$or" (by decide)
  have h4 := hne "$nor" (by decide)
  simp [QueryReads, single, queryPaths, testPaths, h1, h2, h3, h4, h]

private theorem queryReads_below {path sub : String} {test : Json}
    (hsub : ∀ path sub, P path → P (path ++ "." ++ sub)) (h : P path)
    (hplain : beginsWith "$" path = false) :
    (single (path ++ "." ++ sub) test).QueryReads P :=
  queryReads_test (hsub path sub h) (beginsWith_dollar_below hplain sub)

/-- An expression as a query reads what the expression does. -/
theorem queryReads_exprQuery_iff {e : Json} : (exprQuery e).QueryReads P ↔ e.ExprReads P := by
  simp [QueryReads, ExprReads, exprQuery, single, queryPaths, testPaths]

/-- A combination of queries reads what the parts do. -/
theorem queryReads_branches_iff {key : String} {queries : List Json}
    (hkey : key = "$and" ∨ key = "$or" ∨ key = "$nor") :
    (single key (.arr queries)).QueryReads P ↔ ∀ q ∈ queries, q.QueryReads P := by
  have hne : key ≠ "$expr" := by rcases hkey with rfl | rfl | rfl <;> decide
  have hpaths : ∀ path, path ∈ branchesPaths queries ↔ ∃ q ∈ queries, path ∈ q.queryPaths := by
    intro path
    induction queries with
    | nil => simp [branchesPaths]
    | cons q queries ih => simp [branchesPaths, ih]
  simp only [QueryReads, single, queryPaths, testPaths, hne, hkey, branchPaths, if_false, if_true,
    List.append_nil, hpaths]
  constructor
  · exact fun h q hq path hp ↦ h path ⟨q, hq, hp⟩
  · rintro h path ⟨q, hq, hp⟩
    exact h q hq path hp

/-- The negation of a query reads what the query does. -/
theorem queryReads_negateQuery {q : Json} (h : q.QueryReads P) : (negateQuery q).QueryReads P := by
  unfold negateQuery
  split
  · next e =>
    rw [queryReads_exprQuery_iff, exprReads_negateExpr_iff]
    exact queryReads_exprQuery_iff.mp h
  · rw [queryReads_branches_iff (Or.inr (Or.inr rfl))]
    intro q' hq
    rw [List.mem_singleton.mp hq]
    exact h

/-- A comparison of a field reads that field. -/
theorem compareQuery_reads {field : String} {op : Operator} {v q : Json} {type : Option FieldType}
    (hsub : ∀ path sub, P path → P (path ++ "." ++ sub)) (hfield : P field)
    (hplain : beginsWith "$" field = false) (hq : g.compareQuery field op v type = some q) :
    q.QueryReads P := by
  have htest : ∀ t, (single field t).QueryReads P := fun t ↦ queryReads_test hfield hplain
  cases op with
  | compare c =>
    cases c with
    | eq | ne =>
      simp only [compareQuery] at hq
      split at hq <;> (cases hq; exact htest _)
    | gt | gte | lt | lte =>
      cases hq
      exact htest _
  | oneOf | noneOf | regex | contains | startsWith | endsWith | present =>
    cases hq
    exact htest _
  | isNumber =>
    cases hq
    rw [queryReads_exprQuery_iff, exprReads_single_iff (by decide), exprReads_str_iff,
      rootPath?_dollar hplain]
    rintro path ⟨⟩
    exact hfield
  | between =>
    simp only [compareQuery, Option.bind_eq_bind, Option.bind_eq_some_iff] at hq
    obtain ⟨⟨low, high⟩, -, hq⟩ := hq
    cases hq
    exact htest _
  | notBetween =>
    simp only [compareQuery, Option.bind_eq_bind, Option.bind_eq_some_iff] at hq
    obtain ⟨⟨low, high⟩, -, hq⟩ := hq
    cases hq
    rw [queryReads_branches_iff (Or.inr (Or.inl rfl))]
    intro q hq
    simp only [List.mem_cons, List.not_mem_nil, or_false] at hq
    rcases hq with rfl | rfl <;> exact htest _
  | longerThan | shorterThan =>
    simp only [compareQuery, Option.bind_eq_bind, Option.bind_eq_some_iff] at hq
    obtain ⟨n, -, hq⟩ := hq
    split at hq
    · cases hq
      rw [queryReads_exprQuery_iff]
      exact exprReads_bool
    · cases hq
      exact queryReads_below hsub hfield hplain
  | list l => cases hq

private theorem baseQuery_reads {field : String} {op : Operator} {operand : Operand}
    {element : Option Json} {q : Json} (hsub : ∀ path sub, P path → P (path ++ "." ++ sub))
    (hfield : P field) (hplain : beginsWith "$" field = false)
    (hliteral : ∀ v, operand.literal? = some v → v.IsPlain)
    (hlist : ∀ d, operand.list? = some d → d.IsPlain)
    (harray : ∀ d path, operand.list? = some d → d.arrayPath? = some path → P path)
    (helement : ∀ e, element = some e → e.ExprReads P)
    (hq : g.baseQuery field op operand element = some q) : q.QueryReads P := by
  have hpredicate : ∀ q : ListQuery, q.Reads P → P q.arrayPath →
      beginsWith "$" q.arrayPath = false → q.predicate.toQuery.QueryReads P := by
    intro q hreads hP hdollar
    cases hp : q.predicate with
    | expr e =>
      have := hreads.predicate_toExpr
      rw [hp] at this
      exact queryReads_exprQuery_iff.mpr this
    | isArray path reference =>
      have hpath : path = q.arrayPath := by
        unfold ListQuery.predicate at hp
        split at hp
        · cases hp
        · split at hp
          · cases hp
          · cases hp
            rfl
        · cases hp
      rw [hpath]
      exact queryReads_test hP hdollar
  unfold baseQuery at hq
  split at hq
  · next d =>
    obtain ⟨query, hquery, rfl⟩ := Option.map_eq_some_iff.mp hq
    have hreads := ListQuery.reads_ofListCondition? (hlist d rfl)
      (fun path hp _ ↦ harray d path rfl hp) hsub helement hquery
    simp only [ListQuery.ofListCondition?, Option.bind_eq_bind, Option.bind_eq_some_iff] at hquery
    obtain ⟨l, -, path, hpath, hquery⟩ := hquery
    have harrayPath : query.arrayPath = path := by
      cases hquery
      rfl
    apply hpredicate query hreads
    · rw [harrayPath]
      exact harray d path rfl hpath
    · rw [harrayPath]
      exact (hlist d rfl).array path hpath
  · cases hq
    exact hpredicate _ (ListQuery.reads_ofCondition hplain hliteral (fun _ ↦ hfield) hsub helement)
      hfield hplain
  · obtain ⟨v, -, hq⟩ := Option.bind_eq_some_iff.mp hq
    exact compareQuery_reads hsub hfield hplain hq

private theorem materializedQuery_reads {c : Condition} {op : Operator} {name : String}
    {l : ListOperator} {q : Json} (hsub : ∀ path sub, P path → P (path ++ "." ++ sub))
    (hname : P name) (hplain : beginsWith "$" name = false)
    (hq : g.materializedQuery c op name l = some q) :
    q.QueryReads P := by
  have hswitch : ∀ fragment : Json, fragment.QueryReads P →
      (if c.isNegated then negateQuery fragment else fragment).QueryReads P := by
    intro fragment h
    split
    · exact queryReads_negateQuery h
    · exact h
  have hcompare : ∀ type, ((g.compareQuery name op (c.operand.literal?.getD .null) type).bind
      fun fragment ↦ some (if c.isNegated then negateQuery fragment else fragment)) = some q →
      q.QueryReads P := by
    intro type hq
    obtain ⟨fragment, hf, hq⟩ := Option.bind_eq_some_iff.mp hq
    cases hq
    exact hswitch fragment (compareQuery_reads hsub hname hplain hf)
  simp only [materializedQuery, Option.bind_eq_bind] at hq
  split at hq
  · exact hcompare _ hq
  · exact hcompare _ hq
  · exact hcompare _ hq
  · cases hq
    apply hswitch
    rw [queryReads_exprQuery_iff]
    simp [rootPath?_dollar hplain, hname]
  · exact hcompare _ hq

private theorem conditionQuery_reads {p : Projection} {c : Condition} {element : Option Json}
    {q : Json} (hsub : ∀ path sub, P path → P (path ++ "." ++ sub)) (hc : g.MatchReads P p c)
    (helement : ∀ e, element = some e → e.ExprReads P)
    (hq : g.conditionQuery p c element = some q) : q.QueryReads P := by
  simp only [conditionQuery, Option.bind_eq_bind, Option.bind_eq_some_iff] at hq
  obtain ⟨field, hf, op, -, hq⟩ := hq
  have hplain := hc.plain.field field hf
  split at hq
  · next v l hv =>
    split at hq
    · next hmem =>
      have hkey : v.key = field := Catalog.key_of_list? (Resolver.classify_eq_list_iff.mp hv).1
      exact materializedQuery_reads hsub (hc.computed field v l hf hv hmem) (hkey ▸ hplain) hq
    · obtain ⟨e, he, rfl⟩ := Option.map_eq_some_iff.mp hq
      exact queryReads_exprQuery_iff.mpr
        (listReferenceExpr_reads hsub hc.plain.literal (hc.listed field v l hf hv) he)
  · next v hv =>
    have := hc.plain.notArithmetic field hf
    rw [hv] at this
    cases this
  · next hv =>
    obtain ⟨fragment, hb, hq⟩ := Option.bind_eq_some_iff.mp hq
    have hfragment := baseQuery_reads hsub (hc.base field hf hv) hplain hc.plain.literal
      hc.plain.list hc.array helement hb
    cases hq
    split
    · exact queryReads_negateQuery hfragment
    · exact hfragment

/-- A block of the match reads what its conditions do and the fields of its negated blocks. -/
theorem blockQuery_reads {p : Projection} (hsub : ∀ path sub, P path → P (path ++ "." ++ sub))
    (hblocks : ∀ n ∈ p.blocks, P n.1) (b : Block)
    (h : ∀ c ∈ b.plainConditions, g.MatchReads P p c) :
    ∀ q, g.blockQuery p b = some q → q.QueryReads P := by
  have hinvariant : g.QueryInvariant p (g.MatchReads P p) (QueryReads P) := by
    refine ⟨fun n hn ↦ ?_, fun logic parts hparts ↦ ?_, fun c q hc hq ↦ ?_⟩
    · intro path hpath
      simp only [single, queryPaths, testPaths] at hpath
      split at hpath
      · cases hpath
      · split at hpath
        · cases hpath
        · rw [List.mem_singleton.mp hpath]
          exact hblocks n hn
    · rw [queryReads_branches_iff (by cases logic <;> decide)]
      exact hparts
    · refine conditionQuery_reads hsub hc (fun e he ↦ ?_) hq
      simp only [operandExpr] at he
      split at he
      · exact elementExpr_reads hsub c.operand hc.elements e he
      · cases he
  exact hinvariant.block b h

/-- The members of a query read what each of them does. -/
theorem queryReads_obj_iff {members : Members} : (Json.obj members).QueryReads P ↔
    ∀ m ∈ members, (single m.1 m.2).QueryReads P := by
  induction members with
  | nil => simp [QueryReads, queryPaths, testPaths]
  | cons m members ih =>
    obtain ⟨key, v⟩ := m
    rw [List.forall_mem_cons, ← ih]
    simp [QueryReads, single, queryPaths, testPaths, or_imp, forall_and]

/-- A query reads what its members do, and a conjunction what its parts do. -/
theorem queryReads_memberInvariant : MemberInvariant (QueryReads P) where
  member _ h := queryReads_obj_iff.mp h
  and_iff _ := queryReads_branches_iff (Or.inl rfl)

end Queries
end Generator

namespace Context

variable (ctx : Context)

/-- The list variables that a filter uses. -/
def usedLists (blocks : List Block) : List String := (ctx.usage blocks).listVariables

/-- The conditions that the match of a filter is compiled from: those outside negated named blocks,
those of their element predicates, and those of the element predicates of used list variables. -/
def matchConditions (blocks : List Block) : List Condition :=
  (blocks.flatMap Block.plainConditions).flatMap (fun c ↦ c :: c.operand.elementConditions) ++
    (ctx.usedLists blocks).flatMap fun name ↦
      (ctx.catalog.list? name).toList.flatMap (·.condition.operand.elementConditions)

/-- The match is compiled from conditions of the filter and of the catalog. -/
theorem mem_matchConditions {ctx : Context} {blocks : List Block} {c : Condition}
    (hc : c ∈ ctx.matchConditions blocks) :
    (∃ c₀ ∈ blocks.flatMap Block.plainConditions, c ∈ c₀ :: c₀.operand.elementConditions) ∨
      ∃ v ∈ ctx.catalog.lists, c ∈ v.condition.operand.elementConditions := by
  rcases List.mem_append.mp hc with h | h
  · exact Or.inl (List.mem_flatMap.mp h)
  · obtain ⟨name, -, h⟩ := List.mem_flatMap.mp h
    obtain ⟨v, hv, h⟩ := List.mem_flatMap.mp h
    exact Or.inr ⟨v, Catalog.mem_of_list? (Option.mem_toList.mp hv), h⟩

/-- Some key of the projection of a filter is a path or leads to it. -/
def Covers (blocks : List Block) (path : String) : Prop :=
  ∃ key ∈ (ctx.projection blocks).members.keys, LeadsTo key path

variable {ctx} {blocks : List Block}

/-- What leads to a path leads to those below it. -/
theorem Covers.below {path : String} (sub : String) (h : ctx.Covers blocks path) :
    ctx.Covers blocks (path ++ "." ++ sub) := by
  obtain ⟨key, hkey, hleads⟩ := h
  exact ⟨key, hkey, hleads.trans (Or.inr ⟨sub, rfl⟩)⟩

/-- Used paths without blanks are kept. -/
theorem covers_of_baseField {path s : String} (hs : Text.trimmed? s = some path)
    (hp : path ∈ (ctx.usage blocks).baseFields) : ctx.Covers blocks path :=
  Generator.exists_key_of_baseField hp (Text.trimmed?_of_trimmed? hs)

private theorem covers_of_definitionArray {name path : String} (hn : name ∈ ctx.usedLists blocks)
    (hp : path ∈ ctx.resolver.definitionArrays name) : ctx.Covers blocks path := by
  have hbase := Usage.mem_baseFields_of_list hn hp
  simp only [Resolver.definitionArrays, Option.mem_toList, Option.bind_eq_some_iff] at hp
  obtain ⟨v, -, hp⟩ := hp
  exact covers_of_baseField hp hbase

private theorem variableReads_of_used
    (hlists : ∀ name ∈ ctx.usedLists blocks, ∀ v, ctx.catalog.list? name = some v →
      v.condition.IsPlain)
    (hconditions : ∀ c ∈ ctx.matchConditions blocks, c.IsPlain ctx.resolver) {name : String}
    (hn : name ∈ ctx.usedLists blocks) {v : ListVariable} (hv : ctx.catalog.list? name = some v) :
    ctx.generator.VariableReads (ctx.Covers blocks) v := by
  apply Generator.definitionAt_reads (ctx.usedLists blocks) (fun path sub h ↦ h.below sub) _
    (fun name hn path hp ↦ covers_of_definitionArray hn hp) _ _ name hn v hv
  · intro name hn v hv
    refine ⟨hlists name hn v hv, fun c hc ↦ hconditions c (List.mem_append_right _ ?_)⟩
    have hv : ctx.catalog.list? name = some v := hv
    refine List.mem_flatMap.mpr ⟨name, hn, ?_⟩
    simpa [hv] using hc
  · exact fun name hn b hb ↦ Usage.mem_listVariables_of_definition hn hb

/-- A condition outside negated named blocks reads what the projection keeps. -/
theorem matchReads_of_plain
    (hlists : ∀ name ∈ ctx.usedLists blocks, ∀ v, ctx.catalog.list? name = some v →
      v.condition.IsPlain)
    (hconditions : ∀ c ∈ ctx.matchConditions blocks, c.IsPlain ctx.resolver) {c : Condition}
    (hc : c ∈ blocks.flatMap Block.plainConditions) :
    ctx.generator.MatchReads (ctx.Covers blocks) (ctx.projection blocks) c := by
  have hmem : ∀ c' ∈ c :: c.operand.elementConditions, c' ∈ ctx.matchConditions blocks :=
    fun c' hc' ↦ List.mem_append_left _ (List.mem_flatMap.mpr ⟨c, hc, hc'⟩)
  have hused : ∀ {name : String}, name ∈ ctx.resolver.conditionLists c ++
      ctx.resolver.elementLists c.operand → name ∈ ctx.usedLists blocks :=
    fun hn ↦ Usage.mem_listVariables_of_condition hc hn
  constructor
  · exact hconditions c (hmem c List.mem_cons_self)
  · intro field hf hbase
    obtain ⟨s, -, hs⟩ := Option.bind_eq_some_iff.mp hf
    apply covers_of_baseField hs
    apply Usage.mem_baseFields_of_condition hc
    have hbase : ctx.resolver.classify field = .base := hbase
    simp [Resolver.conditionPaths, hf, hbase]
  · intro d path hd hp
    apply covers_of_baseField hp
    apply Usage.mem_baseFields_of_condition hc
    simp [hd, hp]
  · intro field v op hf hv
    have hv : ctx.resolver.classify field = .list v op := hv
    apply variableReads_of_used hlists hconditions _ (Resolver.classify_eq_list_iff.mp hv).1
    apply hused
    simp [Resolver.conditionLists, hf, hv]
  · intro field v op hf hv hcontains
    refine ⟨v.key, Generator.mem_projection_keys_iff.mpr (Or.inr (Or.inl ?_)), Or.inl rfl⟩
    exact List.contains_iff_mem.mp hcontains
  · intro c' hc'
    refine ⟨hconditions c' (hmem c' (List.mem_cons_of_mem _ hc')), fun field v op hf hv ↦ ?_⟩
    have hv : ctx.resolver.classify field = .list v op := hv
    apply variableReads_of_used hlists hconditions _ (Resolver.classify_eq_list_iff.mp hv).1
    apply hused
    refine List.mem_append_right _ (List.mem_flatMap.mpr ⟨c', hc', ?_⟩)
    simp [Resolver.conditionLists, hf, hv]

/-- Whatever the match of a filter reads, the projection keeps or computes: where no definition
leads back to itself and what is compiled is plain, there is a pipeline, and every path that its
match reads is a key of its projection or stands below one. -/
theorem projection_covers_match
    (hacyclic : ∀ name, ¬ TransGen ctx.resolver.Enters name name)
    (hlists : ∀ name ∈ ctx.usedLists blocks, ∀ v, ctx.catalog.list? name = some v →
      v.condition.IsPlain)
    (hconditions : ∀ c ∈ ctx.matchConditions blocks, c.IsPlain ctx.resolver) :
    ∃ pipeline, ctx.compile? blocks = some pipeline ∧
      ∀ content, pipeline.filter = some content → ∀ path ∈ (Json.obj content).queryPaths,
        ∃ members, pipeline.projection = some members ∧
          ∃ key ∈ members.keys, LeadsTo key path := by
  have hcircular : ctx.resolver.isCircular blocks (ctx.usage blocks) = false :=
    ctx.resolver.isCircular_eq_false_iff.mpr fun _ _ name _ ↦ hacyclic name
  have hreads : (Json.obj (ctx.filterMembers blocks)).QueryReads (ctx.Covers blocks) := by
    refine Generator.queryReads_obj_iff.mpr
      (Generator.queryReads_memberInvariant.filterMembers fun b hb q hq ↦ ?_)
    refine Generator.blockQuery_reads (P := ctx.Covers blocks) (fun _ sub h ↦ h.below sub) ?_ b ?_
      q hq
    · intro n hn
      refine ⟨n.1, Generator.mem_projection_keys_iff.mpr (Or.inr (Or.inr ?_)), Or.inl rfl⟩
      exact List.mem_map.mpr ⟨n, hn, rfl⟩
    · intro c hc
      exact matchReads_of_plain hlists hconditions (List.mem_flatMap.mpr ⟨b, hb, hc⟩)
  refine ⟨_, by rw [compile?, hcircular]; rfl, fun content hcontent path hpath ↦ ?_⟩
  have hcontent : content = ctx.filterMembers blocks := by
    simp only at hcontent
    split at hcontent
    · cases hcontent
    · cases hcontent
      rfl
  rw [hcontent] at hpath
  obtain ⟨key, hkey, hleads⟩ := hreads path hpath
  refine ⟨(ctx.projection blocks).members, ?_, key, hkey, hleads⟩
  have hne : (ctx.projection blocks).members.isEmpty = false := by
    cases hm : (ctx.projection blocks).members with
    | nil => simp [hm, Members.keys] at hkey
    | cons m rest => rfl
  simp [hne]

/-- A context with a number `mag` and an array `prv` of records with a number `jd`. The list
variable `low` is the least `jd`, and `hot` holds when `jd` is above 2 in some element, `low` being
positive. -/
def survey : Context where
  schema := .ofFields
    [⟨"mag", .named "double", none⟩,
      ⟨"prv", .node ⟨"array", none, none,
        some (.node ⟨"record", some "P", some [⟨"jd", .named "double", none⟩], none⟩)⟩, none⟩]
  catalog := ⟨[],
    [⟨"low", ⟨"prv", some (.list (.aggregate .min)), some "jd", .literal .null, none, none, none⟩⟩,
      ⟨"hot", ⟨"prv", some (.list (.quantifier .any)), none,
        .nested ⟨"e", .and,
          [.condition ⟨"e1", some "jd", some (.compare .gt), .literal (.int 2), none⟩,
            .condition ⟨"e2", some "low", some (.compare .gt), .literal (.int 0), none⟩],
          none, true⟩, none, none, none⟩⟩]⟩
  settings := .default

/-- A filter that asks for a `mag` of at most 20, a positive `low`, and elements for which `hot`
holds. -/
def surveyFilter : Block where
  id := "root"
  logic := .and
  children :=
    [.condition ⟨"c1", some " mag", some (.compare .lte), .literal (.int 20), none⟩,
      .condition ⟨"c2", some "low", some (.compare .gt), .literal (.int 0), none⟩,
      .condition ⟨"c3", some "prv", some (.list .filter),
        .nested ⟨"n", .and,
          [.condition ⟨"n1", some "hot", some (.compare .eq), .literal (.bool true), none⟩],
          none, true⟩, none⟩]
  name := none
  mustHold := true

/-- The match of the filter on `survey` reads what its projection keeps. -/
theorem survey_projection_covers_match :
    ∃ pipeline, survey.compile? [surveyFilter] = some pipeline ∧
      ∀ content, pipeline.filter = some content → ∀ path ∈ (Json.obj content).queryPaths,
        ∃ members, pipeline.projection = some members ∧
          ∃ key ∈ members.keys, LeadsTo key path := by
  have hlists : ∀ v ∈ survey.catalog.lists, v.condition.IsPlain ∧
      ∀ c ∈ v.condition.operand.elementConditions, c.IsPlain survey.resolver := by
    decide +kernel
  have hplain : ∀ c ∈ [surveyFilter].flatMap Block.plainConditions,
      ∀ c' ∈ c :: c.operand.elementConditions, c'.IsPlain survey.resolver := by
    decide +kernel
  apply projection_covers_match
  · exact survey.resolver.acyclic_iff.mpr (by decide +kernel)
  · exact fun name _ v hv ↦ (hlists v (Catalog.mem_of_list? hv)).1
  · intro c hc
    rcases mem_matchConditions hc with ⟨c₀, hc₀, hc⟩ | ⟨v, hv, hc⟩
    · exact hplain c₀ hc₀ c hc
    · exact (hlists v hv).2 c hc

end Context
end FilterPipeline
