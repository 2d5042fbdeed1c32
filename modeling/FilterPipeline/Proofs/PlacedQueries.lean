import FilterPipeline.Proofs.PlacedProjections

/-!
# References in the match keep to their places

The match refers to fields by keys, which are no strings in it, and by references from the
document's root; only what it has under `$expr` goes into element predicates. Main statement: all
strings of the match keep to a rule where the conditions do that its queries are compiled from.
-/

namespace FilterPipeline

open Fragment Json

namespace Fragment

variable {P : Place → String → Prop} {inside : Bool} {q e : Json}

/-- A query by an expression keeps to a rule when the expression does. -/
@[simp] theorem keeps_exprQuery_iff : (exprQuery e).Keeps P inside ↔ e.Keeps P inside :=
  keeps_single_iff (by decide)

private theorem keeps_negateQuery (h : q.Keeps P inside) : (negateQuery q).Keeps P inside := by
  unfold negateQuery
  split
  · next e =>
    rw [keeps_exprQuery_iff, keeps_negateExpr_iff]
    exact keeps_exprQuery_iff.mp h
  · rw [keeps_single_iff (by decide), keeps_cons_iff]
    exact ⟨h, keeps_nil⟩

end Fragment

/-- A rule on places that allows all references from the document's root outside of element
predicates. -/
structure IsMatchRule (P : Place → String → Prop) : Prop extends IsPlaceRule P where
  root : ∀ path, beginsWith "$" path = false → P ⟨false, false⟩ ("$" ++ path)

private theorem ListQuery.Keeps.predicate_toQuery {P : Place → String → Prop} {q : ListQuery}
    (hP : IsMatchRule P) (h : q.Keeps P false) (hpath : beginsWith "$" q.arrayPath = false) :
    q.predicate.toQuery.Keeps P false := by
  have hexpr := h.predicate_toExpr hP.toIsPlaceRule
  unfold ListQuery.predicate at hexpr ⊢
  split at hexpr
  · exact keeps_exprQuery_iff.mpr hexpr
  · split at hexpr
    · exact keeps_exprQuery_iff.mpr hexpr
    · refine (keeps_single_iff (isTransparent_of_beginsWith hpath)).mpr ?_
      rw [keeps_obj_cons_iff (by decide), keeps_obj_cons_iff (by decide), keeps_str_iff]
      exact ⟨keeps_bool, hP.plain _ _ (by decide), keeps_obj_nil⟩
  · exact keeps_exprQuery_iff.mpr hexpr

namespace Generator

variable {g : Generator} {P : Place → String → Prop} {q : Json}

/-- A condition of the match looks like no reference, and what it is compiled from keeps to a rule,
in the match and in expressions. -/
structure MatchKeeps (g : Generator) (P : Place → String → Prop) (c : Condition) : Prop
    extends g.DocumentKeeps P c where
  plain : c.IsDollarless
  leaves : ∀ leaf ∈ g.formulaLeaves c, P ⟨false, false⟩ (Scope.document.reference leaf)

section Queries

variable (hP : IsMatchRule P) (hoptions : beginsWith "$" g.regexOptions = false)

include hP hoptions

/-- A comparison of a field keeps to a rule. -/
theorem keeps_compareQuery {field : String} {op : Operator} {v : Json} {type : Option FieldType}
    (hfield : beginsWith "$" field = false) (hv : v.IsPlain)
    (hq : g.compareQuery field op v type = some q) : q.Keeps P false := by
  have hrule := hP.toIsPlaceRule
  have htest : ∀ t : Json, t.Keeps P false → (single field t).Keeps P false :=
    fun t ↦ (keeps_single_iff (isTransparent_of_beginsWith hfield)).mpr
  have hbelow : ∀ (sub : String) (b : Bool),
      (single (field ++ "." ++ sub) (single "$exists" (.bool b))).Keeps P false := by
    intro sub b
    rw [keeps_single_iff (isTransparent_of_beginsWith (beginsWith_dollar_below hfield sub)),
      keeps_single_iff (by decide)]
    exact keeps_bool
  have hregex : ∀ pattern, beginsWith "$" pattern = false ∨ pattern = "$" →
      (single field (g.regexTest pattern)).Keeps P false := by
    intro pattern hpattern
    refine htest _ (keeps_regexTest_iff.mpr ⟨hP.plain _ _ hoptions, ?_⟩)
    rcases hpattern with h | rfl
    · exact hP.plain _ _ h
    · exact hP.dollar false
  have hcoerced : (v.coerceFor type).Keeps P false := (hv.coerceFor type).keeps hrule
  have hlist : v.wrapList.Keeps P false := hv.wrapList.keeps hrule
  cases op with
  | compare c =>
    cases c with
    | eq | ne =>
      simp only [compareQuery] at hq
      split at hq
      · cases hq
        refine htest _ ((keeps_single_iff (by decide)).mpr ?_)
        exact keeps_cons_iff.mpr ⟨hcoerced, keeps_nil⟩
      · cases hq
        exact htest _ ((keeps_single_iff (by decide)).mpr hcoerced)
    | gt | gte | lt | lte =>
      cases hq
      exact htest _ ((keeps_single_iff (by decide)).mpr hcoerced)
  | oneOf | noneOf =>
    cases hq
    exact htest _ ((keeps_single_iff (by decide)).mpr hlist)
  | regex =>
    cases hq
    exact hregex _ (Or.inl hv.regexText)
  | contains | startsWith | endsWith =>
    cases hq
    exact hregex _ (v.literalPattern_plain _ _)
  | present =>
    cases hq
    exact htest _ ((keeps_single_iff (by decide)).mpr keeps_bool)
  | isNumber =>
    cases hq
    rw [keeps_exprQuery_iff, keeps_single_iff (by decide), keeps_str_iff]
    exact hP.root field hfield
  | between =>
    simp only [compareQuery, Option.bind_eq_bind, Option.bind_eq_some_iff] at hq
    obtain ⟨⟨low, high⟩, hr, hq⟩ := hq
    cases hq
    obtain ⟨hlow, hhigh⟩ := hv.rangeBounds hr
    refine htest _ ?_
    rw [keeps_obj_cons_iff (by decide), keeps_obj_cons_iff (by decide)]
    exact ⟨hlow.keeps hrule, hhigh.keeps hrule, keeps_obj_nil⟩
  | notBetween =>
    simp only [compareQuery, Option.bind_eq_bind, Option.bind_eq_some_iff] at hq
    obtain ⟨⟨low, high⟩, hr, hq⟩ := hq
    cases hq
    obtain ⟨hlow, hhigh⟩ := hv.rangeBounds hr
    exact (keeps_pair_iff (by decide)).mpr
      ⟨htest _ ((keeps_single_iff (by decide)).mpr (hlow.keeps hrule)),
        htest _ ((keeps_single_iff (by decide)).mpr (hhigh.keeps hrule))⟩
  | longerThan | shorterThan =>
    simp only [compareQuery, Option.bind_eq_bind, Option.bind_eq_some_iff] at hq
    obtain ⟨n, -, hq⟩ := hq
    split at hq
    · cases hq
      exact keeps_exprQuery_iff.mpr keeps_bool
    · cases hq
      exact hbelow _ _
  | list l => cases hq

private theorem keeps_baseQuery {field : String} {op : Operator} {operand : Operand}
    {element : Option Json} (hfield : beginsWith "$" field = false)
    (hreference : P ⟨false, false⟩ (Scope.document.reference field))
    (hliteral : ∀ v ∈ operand.literal?, v.IsPlain)
    (hlist : ∀ d ∈ operand.list?, d.IsPlain ∧ ListQuery.ArrayKeeps P .document false d)
    (helement : ∀ e ∈ element, e.Keeps P true)
    (hq : g.baseQuery field op operand element = some q) : q.Keeps P false := by
  unfold baseQuery at hq
  split at hq
  · next d =>
    obtain ⟨query, hquery, rfl⟩ := Option.map_eq_some_iff.mp hq
    obtain ⟨hd, harray⟩ := hlist d rfl
    refine (ListQuery.keeps_ofListCondition? hd harray helement hquery).predicate_toQuery hP ?_
    simp only [ListQuery.ofListCondition?, Option.bind_eq_bind, Option.bind_eq_some_iff] at hquery
    obtain ⟨l, -, path, hpath, hquery⟩ := hquery
    cases hquery
    exact hd.array path hpath
  · cases hq
    exact (ListQuery.keeps_ofCondition hreference hliteral helement).predicate_toQuery hP hfield
  · obtain ⟨v, hv, hq⟩ := Option.bind_eq_some_iff.mp hq
    exact keeps_compareQuery hP hoptions hfield (hliteral v hv) hq

omit hoptions hP in
private theorem keeps_switched {fragment : Json} (h : fragment.Keeps P false) (b : Bool) :
    (if b then negateQuery fragment else fragment).Keeps P false := by
  split
  · exact keeps_negateQuery h
  · exact h

private theorem keeps_materializedQuery {c : Condition} {op : Operator} {name : String}
    {l : ListOperator} (hname : beginsWith "$" name = false)
    (hliteral : ∀ w ∈ c.operand.literal?, w.IsPlain)
    (hq : g.materializedQuery c op name l = some q) : q.Keeps P false := by
  have hnull : (c.operand.literal?.getD .null).IsPlain := by
    cases hw : c.operand.literal? with
    | none => simp [Json.IsPlain, strings]
    | some w => exact hliteral w hw
  have hcompare : ∀ type, ((g.compareQuery name op (c.operand.literal?.getD .null) type).bind
      fun fragment ↦ some (if c.isNegated then negateQuery fragment else fragment)) = some q →
      q.Keeps P false := by
    intro type hq
    obtain ⟨fragment, hf, hq⟩ := Option.bind_eq_some_iff.mp hq
    cases hq
    exact keeps_switched (keeps_compareQuery hP hoptions hname hnull hf) _
  simp only [materializedQuery, Option.bind_eq_bind] at hq
  split at hq
  · exact hcompare _ hq
  · exact hcompare _ hq
  · exact hcompare _ hq
  · cases hq
    refine keeps_switched ?_ _
    rw [keeps_exprQuery_iff, keeps_pair_iff (by decide), keeps_sizeOfArray_iff, keeps_str_iff]
    exact ⟨hP.root name hname, keeps_int⟩
  · exact hcompare _ hq

private theorem keeps_conditionQuery {p : Projection} {c : Condition} (hc : g.MatchKeeps P c)
    (hq : g.conditionQuery p c (g.operandExpr .document c) = some q) : q.Keeps P false := by
  have hrule := hP.toIsPlaceRule
  have helement := hc.toDocumentKeeps.operandExpr hrule hoptions
  have hown := hc.own
  simp only [conditionQuery, Option.bind_eq_bind, Option.bind_eq_some_iff] at hq
  obtain ⟨field, hf, op, -, hq⟩ := hq
  have hfield := hc.plain.field field hf
  have hbase : ∀ fragment, (∀ v l, g.resolver.classify field ≠ .list v l) →
      g.resolver.expand? g.readFormula field = none →
      g.baseQuery field op c.operand (g.operandExpr .document c) = some fragment →
      fragment.Keeps P false :=
    fun fragment hlist hexpand ↦ keeps_baseQuery hP hoptions hfield
      (hown.base field hf hlist hexpand) hown.literal hown.list helement
  split at hq
  · next v l hv =>
    split at hq
    · have hkey : v.key = field := Catalog.key_of_list? (Resolver.classify_eq_list_iff.mp hv).1
      exact keeps_materializedQuery hP hoptions (hkey ▸ hfield) hown.literal hq
    · obtain ⟨e, he, rfl⟩ := Option.map_eq_some_iff.mp hq
      exact keeps_exprQuery_iff.mpr
        (keeps_listReferenceExpr hrule hoptions hown.literal (hown.listed field hf v l hv) he)
  · next v hv =>
    split at hq
    · next t ht =>
      simp only [Option.bind_eq_some_iff] at hq
      obtain ⟨w, hw, e, he, fragment, hfragment, hq⟩ := hq
      cases hfragment
      cases hq
      have hformula : (t.render .document).Keeps P false := by
        refine keeps_renderWith t fun leaf hleaf ↦ keeps_str_iff.mpr ?_
        exact hc.leaves leaf (mem_formulaLeaves_iff.mpr ⟨field, hf, v, t, hv, ht, hleaf⟩)
      exact keeps_switched (keeps_exprQuery_iff.mpr
        (keeps_compareExpr hrule hoptions hformula (hown.literal w hw) he)) _
    · next hexpand =>
      obtain ⟨fragment, hb, hq⟩ := Option.bind_eq_some_iff.mp hq
      cases hq
      exact keeps_switched (hbase fragment (by simp [hv]) hexpand hb) _
  · next hv =>
    obtain ⟨fragment, hb, hq⟩ := Option.bind_eq_some_iff.mp hq
    cases hq
    exact keeps_switched (hbase fragment (by simp [hv])
      (Resolver.expand?_of_classify_base hv _) hb) _

/-- The queries of blocks keep to a rule where their conditions do and the names that negated blocks
are computed under are no operators. -/
theorem keeps_queryInvariant {p : Projection} (hblocks : ∀ n ∈ p.blocks, IsTransparent n.1) :
    g.QueryInvariant p (g.MatchKeeps P) (Keeps P false) where
  negated n hn := (keeps_single_iff (hblocks n hn)).mpr keeps_bool
  combine logic queries hqueries :=
    (keeps_single_iff (by cases logic <;> decide)).mpr (keeps_arr_iff.mpr hqueries)
  condition _ _ hc hq := keeps_conditionQuery hP hoptions hc hq

end Queries
end Generator

/-- A query keeps to a rule where its members do, and a conjunction where its parts do. -/
theorem keeps_memberInvariant {P : Place → String → Prop} {inside : Bool} :
    MemberInvariant (Keeps P inside) where
  member _ h := keeps_obj_iff.mp h
  and_iff items := by
    rw [keeps_single_iff (by decide), keeps_arr_iff]

end FilterPipeline
