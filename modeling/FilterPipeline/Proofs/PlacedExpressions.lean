import FilterPipeline.Proofs.Contributing
import FilterPipeline.Proofs.Places

/-!
# References in expressions keep to their places

What a condition is compiled to holds references to its field or its array in its own scope, what
the element predicate within it holds, and, where it names a list variable, references to the array
of that from the document's root. Main statement: if those keep to a rule on what is allowed in
which place, all of the expression does.
-/

namespace FilterPipeline

open Relation Fragment Json

/-- Whether conditions are about a single element. -/
def Scope.isElement : Scope → Bool
  | document => false
  | element _ => true

private theorem beginsWith_dollar_of_scalar {s : String}
    (h : ∀ c ∈ s.toList, Lexer.isScalarChar c = true) : beginsWith "$" s = false := by
  rw [Bool.eq_false_iff, ne_eq, beginsWith_dollar_iff]
  rintro ⟨cs, hcs⟩
  have := h '$' (by rw [hcs]; exact List.mem_cons_self)
  revert this
  decide

/-- The pattern that a plain value is begins with no dollar sign. -/
theorem Json.IsPlain.regexText {v : Json} (h : v.IsPlain) :
    beginsWith "$" v.regexText = false := by
  cases v with
  | null => rfl
  | bool b => cases b <;> decide
  | int n => exact beginsWith_dollar_of_scalar (isScalarChar_compact_int n)
  | double x => exact beginsWith_dollar_of_scalar (isScalarChar_write x)
  | str s => exact h s List.mem_cons_self
  | arr items =>
    have htext : (arr items).regexText.toList =
        '[' :: (",".intercalate (compactItems items) ++ "]").toList := by
      simp [Json.regexText, compact]
    exact beginsWith_dollar_of_head htext (by decide)
  | obj members =>
    have htext : (obj members).regexText.toList =
        '\x7b' :: (",".intercalate (compactMembers members) ++ "\x7d").toList := by
      simp [Json.regexText, compact]
    exact beginsWith_dollar_of_head htext (by decide)

/-- The pattern for a literal begins with no dollar sign, or it asks for no more than the end. -/
theorem Json.literalPattern_plain (v : Json) (atStart atEnd : Bool) :
    beginsWith "$" (v.literalPattern atStart atEnd) = false ∨
      v.literalPattern atStart atEnd = "$" := by
  by_cases h : v.regexText = ""
  · unfold literalPattern
    rw [h]
    cases atStart <;> cases atEnd <;> decide
  · exact Or.inl (beginsWith_dollar_literalPattern v h)

/-- A path is not expanded. -/
theorem Resolver.expand?_of_classify_base {r : Resolver} {name : String}
    (h : r.classify name = .base) (read : String → Formula) : r.expand? read name = none := by
  have hname : r.catalog.arithmetic? name = none := by
    unfold classify at h
    split at h
    · cases h
    · split at h
      · cases h
      · next hname => exact hname
  unfold expand?
  cases r.catalog.arithmetic.length with
  | zero => rfl
  | succ fuel => simp [expandWithin, hname]

namespace ListQuery

/-- All that a question about an array is put together from keeps to a rule. -/
structure Keeps (P : Place → String → Prop) (inside : Bool) (q : ListQuery) : Prop where
  reference : P ⟨inside, false⟩ q.reference
  subField : ∀ sub ∈ q.subField, P ⟨inside, false⟩ (q.reference ++ "." ++ sub)
  element : ∀ e ∈ q.element, e.Keeps P true
  scalar : ∀ v ∈ q.scalar, v.IsPlain
  comparisonValue : ∀ v ∈ q.comparisonValue, v.IsPlain

variable {P : Place → String → Prop} {inside : Bool} {q : ListQuery}

private theorem isTransparent_key {op : ListOperator} (h : op ≠ .filter) :
    IsTransparent op.key := by
  rcases op with (_ | _) | _ | (_ | _ | _ | _)
  case filter => exact absurd rfl h
  all_goals decide

private theorem isTransparent_comparison (c : Comparison) : IsTransparent c.key := by
  cases c <;> decide

namespace Keeps

/-- The array to walk over keeps to a rule. -/
theorem input (h : q.Keeps P inside) : q.input.Keeps P inside := by
  rw [ListQuery.input, keeps_arrayInput_iff, keeps_str_iff]
  exact h.reference

/-- The predicate on an element keeps to a rule where elements are. -/
theorem elementPredicate (hP : IsPlaceRule P) (h : q.Keeps P inside) {p : Json}
    (hp : q.elementPredicate? = some p) : p.Keeps P true := by
  rcases Option.or_eq_some_iff.mp hp with he | ⟨-, hs⟩
  · exact h.element p he
  · obtain ⟨v, hv, rfl⟩ := Option.map_eq_some_iff.mp hs
    have hplain := h.scalar v (Option.filter_eq_some_iff.mp hv).1
    rw [keeps_pair_iff (by decide), keeps_str_iff]
    exact ⟨hP.element _ (by decide), hplain.keeps hP⟩

/-- A quantifier keeps to a rule. -/
theorem quantifierExpr (hP : IsPlaceRule P) (h : q.Keeps P inside) (hop : q.op ≠ .filter) :
    q.quantifierExpr.Keeps P inside := by
  rw [ListQuery.quantifierExpr, keeps_single_iff (isTransparent_key hop)]
  split
  · next p hp => exact keeps_map_iff.mpr ⟨h.elementPredicate hP hp, h.input⟩
  · exact h.input

/-- A filter keeps to a rule. -/
theorem filterExpr (hP : IsPlaceRule P) (h : q.Keeps P inside) {e : Json}
    (he : q.filterExpr? = some e) : e.Keeps P inside := by
  obtain ⟨p, hp, rfl⟩ := Option.map_eq_some_iff.mp he
  exact keeps_filter_iff.mpr ⟨h.elementPredicate hP hp, h.input⟩

/-- The elements that pass a filter, or all of them, keep to a rule. -/
theorem filteredExpr (hP : IsPlaceRule P) (h : q.Keeps P inside) :
    q.filteredExpr.Keeps P inside := by
  rw [ListQuery.filteredExpr]
  cases he : q.filterExpr? with
  | none => exact h.input
  | some e => exact h.filterExpr hP he

/-- An aggregate keeps to a rule. -/
theorem aggregateExpr (h : q.Keeps P inside) (hop : q.op ≠ .filter) :
    q.aggregateExpr.Keeps P inside := by
  rw [ListQuery.aggregateExpr, keeps_single_iff (isTransparent_key hop), keeps_str_iff]
  split
  · next sub hsub => exact h.subField sub hsub
  · exact h.reference

private theorem aggregateComparison (hP : IsPlaceRule P) (h : q.Keeps P inside)
    (hop : q.op ≠ .filter) :
    q.aggregateComparison.Keeps P inside := by
  rw [ListQuery.aggregateComparison]
  split
  · next target ht =>
    have hplain : target.IsPlain := by
      rcases Option.or_eq_some_iff.mp ht with hc | ⟨-, hs⟩
      · exact h.comparisonValue target (Option.filter_eq_some_iff.mp hc).1
      · exact h.scalar target (Option.filter_eq_some_iff.mp hs).1
    exact (keeps_pair_iff (isTransparent_comparison _)).mpr
      ⟨h.aggregateExpr hop, hplain.coerceNumber.keeps hP⟩
  · exact (keeps_pair_iff (by decide)).mpr ⟨h.aggregateExpr hop, keeps_int⟩

/-- A question as an expression keeps to a rule. -/
theorem predicate_toExpr (hP : IsPlaceRule P) (h : q.Keeps P inside) :
    q.predicate.toExpr.Keeps P inside := by
  rw [ListQuery.predicate]
  split
  · next hop => exact h.quantifierExpr hP (by simp [hop])
  · split
    · next filtered hf => exact keeps_isNotEmpty_iff.mpr (h.filterExpr hP hf)
    · exact (keeps_single_iff (by decide)).mpr (keeps_str_iff.mpr h.reference)
  · next hop => exact h.aggregateComparison hP (by simp [hop])

end Keeps

/-- References to an array in a scope, and below it, keep to a rule. -/
structure ArrayKeeps (P : Place → String → Prop) (scope : Scope) (inside : Bool)
    (d : ListCondition) : Prop where
  reference : ∀ path ∈ d.arrayPath?, P ⟨inside, false⟩ (scope.reference path)
  subField : ∀ path ∈ d.arrayPath?, ∀ sub ∈ d.subFieldName?,
    P ⟨inside, false⟩ (scope.reference path ++ "." ++ sub)

/-- The question of a list condition keeps to a rule. -/
theorem keeps_ofListCondition? {d : ListCondition} {outer : Option Operator} {scope : Scope}
    {element : Option Json} (hd : d.IsPlain) (harray : ArrayKeeps P scope inside d)
    (helement : ∀ e ∈ element, e.Keeps P true)
    (hq : ofListCondition? d outer scope element = some q) : q.Keeps P inside := by
  simp only [ofListCondition?, Option.bind_eq_bind, Option.bind_eq_some_iff] at hq
  obtain ⟨op, -, path, hpath, hq⟩ := hq
  cases hq
  exact ⟨harray.reference path hpath, harray.subField path hpath, helement, hd.scalar,
    hd.comparisonValue⟩

/-- The question of a list operator on a condition keeps to a rule. -/
theorem keeps_ofCondition {field : String} {op : ListOperator} {operand : Operand} {scope : Scope}
    {element : Option Json} (hfield : P ⟨inside, false⟩ (scope.reference field))
    (hliteral : ∀ v ∈ operand.literal?, v.IsPlain) (helement : ∀ e ∈ element, e.Keeps P true) :
    (ofCondition field op operand scope element).Keeps P inside where
  reference := hfield
  subField _ h := by cases h
  element := helement
  scalar := hliteral
  comparisonValue _ h := by cases h

end ListQuery

namespace Generator

/-- The leaves of the formula that is written out for a condition on an arithmetic variable. -/
def formulaLeaves (g : Generator) (c : Condition) : List String :=
  match c.fieldName? with
  | none => []
  | some field =>
    match g.resolver.classify field with
    | .arithmetic _ => ((g.resolver.expand? g.readFormula field).map Formula.fields).getD []
    | _ => []

/-- The leaves of what an arithmetic variable expands to are written out for a condition on it. -/
theorem mem_formulaLeaves_iff {g : Generator} {c : Condition} {leaf : String} :
    leaf ∈ g.formulaLeaves c ↔ ∃ field ∈ c.fieldName?, ∃ v t,
      g.resolver.classify field = .arithmetic v ∧
        g.resolver.expand? g.readFormula field = some t ∧ leaf ∈ t.fields := by
  unfold formulaLeaves
  cases c.fieldName? with
  | none => simp
  | some field =>
    cases hv : g.resolver.classify field with
    | arithmetic v => cases ht : g.resolver.expand? g.readFormula field <;> simp [hv, ht]
    | base | list => simp [hv]

/-- The references that writing out a list variable makes keep to a rule, within element predicates
and outside of them. -/
structure VariableKeeps (g : Generator) (P : Place → String → Prop) (v : ListVariable) : Prop where
  plain : v.condition.IsPlain
  array : ∀ inside, ListQuery.ArrayKeeps P .document inside v.condition
  definition : ∀ e ∈ g.definition v, e.Keeps P true

/-- What a leaf of a formula is rendered as keeps to a rule: the aggregate that it names, or else
the reference to it. -/
structure LeafKeeps (g : Generator) (P : Place → String → Prop) (scope : Scope) (leaf : String) :
    Prop where
  aggregate : ∀ v a, g.resolver.classify leaf = .list v (.aggregate a) → g.VariableKeeps P v
  reference : (∀ v a, g.resolver.classify leaf = .list v (.aggregate a) →
    g.variableQuery? v = none) → P ⟨scope.isElement, false⟩ (scope.reference leaf)

/-- What a condition is compiled from keeps to a rule: its field and its array, where it names no
variable, the list variable that it names, or the leaves of the formula that it names. -/
structure ConditionKeeps (g : Generator) (P : Place → String → Prop) (scope : Scope)
    (c : Condition) : Prop where
  literal : ∀ v ∈ c.operand.literal?, v.IsPlain
  list : ∀ d ∈ c.operand.list?, d.IsPlain ∧ ListQuery.ArrayKeeps P scope scope.isElement d
  base : ∀ field ∈ c.fieldName?, (∀ v l, g.resolver.classify field ≠ .list v l) →
    g.resolver.expand? g.readFormula field = none →
    P ⟨scope.isElement, false⟩ (scope.reference field)
  listed : ∀ field ∈ c.fieldName?, ∀ v l, g.resolver.classify field = .list v l →
    g.VariableKeeps P v
  leaves : ∀ leaf ∈ g.formulaLeaves c, g.LeafKeeps P scope leaf

section Expressions

variable {g : Generator} {P : Place → String → Prop} {inside : Bool} {scope : Scope}

/-- A comparison keeps to a rule where what is compared does. -/
theorem keeps_compareExpr (hP : IsPlaceRule P) (hoptions : beginsWith "$" g.regexOptions = false)
    {lhs v e : Json} {op : Operator} {type : Option FieldType} (hlhs : lhs.Keeps P inside)
    (hv : v.IsPlain) (he : g.compareExpr lhs op v type = some e) : e.Keeps P inside := by
  have hregex : ∀ pattern, beginsWith "$" pattern = false ∨ pattern = "$" →
      (g.regexExpr lhs pattern).Keeps P inside := by
    intro pattern hpattern
    refine keeps_regexMatch_iff.mpr ⟨hlhs, hP.plain _ _ hoptions, ?_⟩
    rcases hpattern with h | rfl
    · exact hP.plain _ _ h
    · exact hP.dollar inside
  have htext : ∀ s, beginsWith "$" s = false → (Json.str s).Keeps P inside :=
    fun s hs ↦ keeps_str_iff.mpr (hP.plain _ s hs)
  cases op with
  | compare c =>
    cases he
    exact (keeps_pair_iff (by cases c <;> decide)).mpr ⟨hlhs, (hv.coerceFor type).keeps hP⟩
  | oneOf =>
    cases he
    exact (keeps_pair_iff (by decide)).mpr ⟨hlhs, hv.wrapList.keeps hP⟩
  | noneOf =>
    cases he
    exact keeps_negateExpr_iff.mpr ((keeps_pair_iff (by decide)).mpr ⟨hlhs, hv.wrapList.keeps hP⟩)
  | regex =>
    cases he
    exact hregex _ (Or.inl hv.regexText)
  | contains | startsWith | endsWith =>
    cases he
    exact hregex _ (v.literalPattern_plain _ _)
  | present =>
    cases he
    refine (keeps_pair_iff (by split <;> decide)).mpr ⟨?_, htext _ (by decide)⟩
    exact (keeps_single_iff (by decide)).mpr hlhs
  | isNumber =>
    cases he
    exact (keeps_single_iff (by decide)).mpr hlhs
  | between | notBetween =>
    simp only [compareExpr, Option.bind_eq_bind, Option.bind_eq_some_iff] at he
    obtain ⟨⟨low, high⟩, hr, he⟩ := he
    cases he
    obtain ⟨hlow, hhigh⟩ := hv.rangeBounds hr
    exact (keeps_pair_iff (by decide)).mpr ⟨(keeps_pair_iff (by decide)).mpr ⟨hlhs, hlow.keeps hP⟩,
      (keeps_pair_iff (by decide)).mpr ⟨hlhs, hhigh.keeps hP⟩⟩
  | longerThan | shorterThan =>
    simp only [compareExpr, Option.bind_eq_bind, Option.bind_eq_some_iff] at he
    obtain ⟨n, -, he⟩ := he
    cases he
    split
    · exact keeps_bool
    · exact (keeps_pair_iff (by decide)).mpr ⟨keeps_sizeOfArray_iff.mpr hlhs, keeps_ofDouble⟩
  | list l => cases he

/-- The question that a list variable asks keeps to a rule wherever it is written out. -/
theorem VariableKeeps.variableQuery {v : ListVariable} (hv : g.VariableKeeps P v) {q : ListQuery}
    (hq : g.variableQuery? v = some q) (inside : Bool) : q.Keeps P inside := by
  refine ListQuery.keeps_ofListCondition? hv.plain (hv.array inside) (fun e he ↦ ?_) hq
  split at he
  · exact hv.definition e he
  · cases he

private theorem keeps_negated {e : Json} (h : e.Keeps P inside) (b : Bool) :
    (if b then negateExpr e else e).Keeps P inside := by
  split
  · exact keeps_negateExpr_iff.mpr h
  · exact h

private theorem isPlain_getD {v : Option Json} (h : ∀ w ∈ v, w.IsPlain) :
    (v.getD .null).IsPlain := by
  cases v with
  | none => simp [Json.IsPlain, strings]
  | some w => exact h w rfl

/-- A condition on a list variable that is written out keeps to a rule. -/
theorem keeps_listReferenceExpr (hP : IsPlaceRule P)
    (hoptions : beginsWith "$" g.regexOptions = false) {c : Condition} {op : Operator}
    {v : ListVariable} {e : Json} (hliteral : ∀ w ∈ c.operand.literal?, w.IsPlain)
    (hv : g.VariableKeeps P v) (he : g.listReferenceExpr c op v = some e) : e.Keeps P inside := by
  simp only [listReferenceExpr, Option.bind_eq_bind, Option.bind_eq_some_iff] at he
  obtain ⟨q, hq, he⟩ := he
  have hkeeps := hv.variableQuery hq inside
  have hnull := isPlain_getD hliteral
  split at he
  · next hop =>
    cases he
    have hquantifier := keeps_negated (hkeeps.quantifierExpr hP (by simp [hop])) (c.asksForFalse op)
    split
    · exact hquantifier
    · exact keeps_negateExpr_iff.mpr hquantifier
  · next hop =>
    obtain ⟨a, ha, he⟩ := Option.bind_eq_some_iff.mp he
    cases he
    have haggregate := hkeeps.aggregateExpr (by simp [hop])
    exact keeps_negated (keeps_compareExpr hP hoptions haggregate hnull ha) _
  · obtain ⟨a, ha, he⟩ := Option.bind_eq_some_iff.mp he
    cases he
    refine keeps_negated ?_ _
    have hfiltered := hkeeps.filteredExpr hP
    unfold arrayExpr at ha
    split at ha
    · exact keeps_compareExpr hP hoptions hfiltered hnull ha
    · exact keeps_compareExpr hP hoptions hfiltered hnull ha
    · exact keeps_compareExpr hP hoptions hfiltered hnull ha
    · cases ha
      exact (keeps_pair_iff (by decide)).mpr ⟨keeps_sizeOfArray_iff.mpr hfiltered, keeps_int⟩

/-- A formula keeps to a rule where its leaves do. -/
theorem keeps_renderWith {render : String → Option Json} {fields : FieldScope} (t : Formula)
    (h : ∀ leaf ∈ t.fields,
      ((render leaf).getD (.str (fields.reference leaf))).Keeps P inside) :
    (t.renderWith render fields).Keeps P inside := by
  induction t with
  | number x => exact keeps_ofDouble
  | field path => exact h path (List.mem_singleton_self _)
  | binary op left right ihleft ihright =>
    rw [Formula.renderWith, keeps_pair_iff (by cases op <;> decide)]
    exact ⟨ihleft fun leaf hl ↦ h leaf (List.mem_append_left _ hl),
      ihright fun leaf hl ↦ h leaf (List.mem_append_right _ hl)⟩
  | call f arg ih =>
    rw [Formula.renderWith, keeps_single_iff (by cases f <;> decide)]
    exact ih h
  | negate arg ih =>
    rw [Formula.renderWith, keeps_pair_iff (by decide)]
    exact ⟨keeps_int, ih h⟩

private theorem keeps_formulaExpr {t : Formula} (h : ∀ leaf ∈ t.fields, g.LeafKeeps P scope leaf) :
    (g.formulaExpr scope t).Keeps P scope.isElement := by
  refine keeps_renderWith t fun leaf hleaf ↦ ?_
  have hkeeps := h leaf hleaf
  split
  · next v a hv =>
    cases hq : g.variableQuery? v with
    | none =>
      refine keeps_str_iff.mpr (hkeeps.reference fun w b hw ↦ ?_)
      rw [hv] at hw
      cases hw
      exact hq
    | some q =>
      have hop := op_of_variableQuery? (Resolver.classify_eq_list_iff.mp hv).2 hq
      exact ((hkeeps.aggregate v a hv).variableQuery hq _).aggregateExpr (by simp [hop])
  · next hnone =>
    exact keeps_str_iff.mpr (hkeeps.reference fun w b hw ↦ absurd hw (hnone w b))

private theorem keeps_baseExpr (hP : IsPlaceRule P)
    (hoptions : beginsWith "$" g.regexOptions = false) {field : String} {op : Operator}
    {operand : Operand} {element : Option Json} {e : Json}
    (hfield : P ⟨scope.isElement, false⟩ (scope.reference field))
    (hliteral : ∀ v ∈ operand.literal?, v.IsPlain)
    (hlist : ∀ d ∈ operand.list?, d.IsPlain ∧ ListQuery.ArrayKeeps P scope scope.isElement d)
    (helement : ∀ e ∈ element, e.Keeps P true)
    (he : g.baseExpr scope field op operand element = some e) : e.Keeps P scope.isElement := by
  unfold baseExpr at he
  split at he
  · next d =>
    obtain ⟨q, hq, rfl⟩ := Option.map_eq_some_iff.mp he
    obtain ⟨hd, harray⟩ := hlist d rfl
    exact (ListQuery.keeps_ofListCondition? hd harray helement hq).predicate_toExpr hP
  · cases he
    exact (ListQuery.keeps_ofCondition hfield hliteral helement).predicate_toExpr hP
  · obtain ⟨v, hv, he⟩ := Option.bind_eq_some_iff.mp he
    exact keeps_compareExpr hP hoptions (keeps_str_iff.mpr hfield) (hliteral v hv) he

/-- A condition keeps to a rule where what it is compiled from does. -/
theorem keeps_conditionExpr (hP : IsPlaceRule P) (hoptions : beginsWith "$" g.regexOptions = false)
    {c : Condition} {element : Option Json} {e : Json} (hc : g.ConditionKeeps P scope c)
    (helement : ∀ e ∈ element, e.Keeps P true)
    (he : g.conditionExpr scope c element = some e) : e.Keeps P scope.isElement := by
  simp only [conditionExpr, Option.bind_eq_bind, Option.bind_eq_some_iff] at he
  obtain ⟨field, hf, op, -, he⟩ := he
  have hbase : ∀ b, (∀ v l, g.resolver.classify field ≠ .list v l) →
      g.resolver.expand? g.readFormula field = none →
      g.baseExpr scope field op c.operand element = some b → b.Keeps P scope.isElement :=
    fun b hlist hexpand hb ↦ keeps_baseExpr hP hoptions (hc.base field hf hlist hexpand) hc.literal
      hc.list helement hb
  split at he
  · next v l hv =>
    exact keeps_listReferenceExpr hP hoptions hc.literal (hc.listed field hf v l hv) he
  · next v hv =>
    split at he
    · next t ht =>
      simp only [Option.bind_eq_some_iff] at he
      obtain ⟨w, hw, b, hb, he⟩ := he
      cases he
      have hformula := keeps_formulaExpr (t := t) fun leaf hleaf ↦
        hc.leaves leaf (mem_formulaLeaves_iff.mpr ⟨field, hf, v, t, hv, ht, hleaf⟩)
      exact keeps_negated (keeps_compareExpr hP hoptions hformula (hc.literal w hw) hb) _
    · next hexpand =>
      obtain ⟨b, hb, he⟩ := Option.bind_eq_some_iff.mp he
      cases he
      exact keeps_negated (hbase b (by simp [hv]) hexpand hb) _
  · next hv =>
    obtain ⟨b, hb, he⟩ := Option.bind_eq_some_iff.mp he
    cases he
    exact keeps_negated (hbase b (by simp [hv]) (Resolver.expand?_of_classify_base hv _) hb) _

end Expressions

end Generator
end FilterPipeline
