import FilterPipeline.Proofs.FormLaws
import FilterPipeline.Proofs.NegatedBlocks
import FilterPipeline.Proofs.ProjectionCoverage

/-!
# The two forms of a block agree

A block of the match can be compiled to a query or to an expression, by two walks that share little.
Main statement: under every reading of tests and expressions that obeys the laws both forms of a
block are there or none is, and they hold alike. Dependencies of formulas that usage analysis does
not find, and equal negated blocks that are not compiled alike, are what can come between.
-/

namespace FilterPipeline

open Relation Fragment

namespace Double

variable {x : Double} {k : Int} {d : Nat}

private theorem floorInt64_finite (negative : Bool) (m : Nat) (q : Int) :
    (finite negative m q).floorInt64 = ((finite negative m q).toFraction?.map fun (n, d) ↦
      clampInt64 (n.fdiv d)).getD 0 := rfl

private theorem ceilInt64_finite (negative : Bool) (m : Nat) (q : Int) :
    (finite negative m q).ceilInt64 = ((finite negative m q).toFraction?.map fun (n, d) ↦
      clampInt64 (-(-n).fdiv d)).getD 0 := rfl

private theorem floorInt64_eq (hx : x.toFraction? = some (k, d)) :
    x.floorInt64 = clampInt64 (k / d) := by
  cases x with
  | infinite negative => cases hx
  | nan => cases hx
  | finite negative m q =>
    rw [floorInt64_finite, hx, ← Int.fdiv_eq_ediv_of_nonneg k (Int.natCast_nonneg d)]
    rfl

private theorem ceilInt64_eq (hx : x.toFraction? = some (k, d)) :
    x.ceilInt64 = clampInt64 (-(-k / d)) := by
  cases x with
  | infinite negative => cases hx
  | nan => cases hx
  | finite negative m q =>
    rw [ceilInt64_finite, hx, ← Int.fdiv_eq_ediv_of_nonneg (-k) (Int.natCast_nonneg d)]
    rfl

/-- A length that 64 bits can count past is above a number just when it is above its whole part. -/
theorem floorInt64_lt_iff (hx : x.toFraction? = some (k, d)) (hk : 0 ≤ k) {length : Nat}
    (h : length < maxInt64) : 0 ≤ x.floorInt64 ∧ (x.floorInt64 < length ↔ k < length * d) := by
  have hd : 0 < (d : Int) := Int.natCast_pos.mpr (den_pos hx)
  have hnonneg : 0 ≤ k / d := Int.ediv_nonneg hk hd.le
  rw [floorInt64_eq hx, ← Int.ediv_lt_iff_lt_mul hd]
  unfold clampInt64 minInt64
  unfold maxInt64 at h ⊢
  omega

/-- A length that 64 bits can count past is below a positive number just when it is no more than the
whole number below it. -/
theorem ceilInt64_lt_iff (hx : x.toFraction? = some (k, d)) (hk : 0 < k) {length : Nat}
    (h : length < maxInt64) :
    0 ≤ x.ceilInt64 - 1 ∧ (x.ceilInt64 - 1 < length ↔ ¬ length * d < k) := by
  have hd : 0 < (d : Int) := Int.natCast_pos.mpr (den_pos hx)
  have hneg : -k / d < 0 := Int.ediv_neg_of_neg_of_pos (by omega) hd
  have hlt : length * d < k ↔ -k / d < -length := by
    rw [Int.ediv_lt_iff_lt_mul hd, Int.neg_mul]
    omega
  rw [ceilInt64_eq hx, hlt]
  unfold clampInt64 minInt64
  unfold maxInt64 at h ⊢
  omega

end Double

namespace QueryReading

variable {V : QueryReading} {length : String → Nat} {g : Generator} {p : Projection}

/-- A test of a path that is no key of queries is read as one. -/
theorem holds_test {path : String} (h : beginsWith "$" path = false) (t : Json) :
    V.holds (.single path t) = V.test path t := by
  have hne : ∀ key, beginsWith "$" key = true → path ≠ key := by
    rintro key hkey rfl
    rw [h] at hkey
    cases hkey
  simp [Json.single, holds, membersHold, hne "$expr" (by decide), hne "$and" (by decide),
    hne "$or" (by decide), hne "$nor" (by decide)]

/-- An expression as a query holds when the expression does. -/
theorem holds_exprQuery (e : Json) : V.holds (exprQuery e) = V.exprHolds e := by
  simp [exprQuery, Json.single, holds, membersHold]

/-- A negated expression holds when the expression does not. -/
theorem exprHolds_negateExpr (e : Json) : V.exprHolds (negateExpr e) = !V.exprHolds e := by
  simp [negateExpr, Json.single, exprHolds]

private theorem holds_negateQuery (q : Json) : V.holds (negateQuery q) = !V.holds q := by
  unfold negateQuery
  split
  · next e =>
    rw [holds_exprQuery, exprHolds_negateExpr]
    exact congrArg _ (holds_exprQuery e).symm
  · simp [Json.single, holds, membersHold, partsHold?, queriesHold]

/-- A query and an expression that hold alike do so when both are negated. -/
theorem map_holds_negated {q e : Option Json} (h : q.map V.holds = e.map V.exprHolds)
    (negated : Bool) :
    (q.bind fun q ↦ some (if negated then negateQuery q else q)).map V.holds =
      (e.bind fun e ↦ some (if negated then negateExpr e else e)).map V.exprHolds := by
  cases q with
  | none =>
    cases e with
    | none => rfl
    | some e => cases h
  | some q =>
    cases e with
    | none => cases h
    | some e =>
      have h : V.holds q = V.exprHolds e := Option.some_inj.mp h
      cases negated <;> simp [h, holds_negateQuery, exprHolds_negateExpr]

private theorem holds_index (hV : V.FormLaws length g p) {path : String}
    (hpath : IsDocumentPath path) {i : Int} (hi : 0 ≤ i) (b : Bool) :
    V.holds (.single (path ++ "." ++ toString i) (.single "$exists" (.bool b))) =
      (b == decide (i < length path)) := by
  rw [holds_test (beginsWith_dollar_below hpath.1 _), hV.index path hpath i hi]

/-- A comparison of a field holds alike in both forms. -/
theorem map_holds_compareQuery (hV : V.FormLaws length g p) {path : String}
    (hpath : IsDocumentPath path) (op : Operator) {v : Json} (type : Option FieldType)
    (hfinite : ∀ n, v.number? = some n → n.isFinite = true) :
    (g.compareQuery path op v type).map V.holds =
      (g.compareExpr (.str ("$" ++ path)) op v type).map V.exprHolds := by
  have htest : ∀ t, V.holds (.single path t) = V.test path t := holds_test hpath.1
  have hcompare := hV.compare path hpath
  cases op with
  | compare c =>
    cases c with
    | eq =>
      simp only [Generator.compareQuery, Generator.compareExpr]
      split
      · simp [htest, hV.inOne path hpath, Comparison.key]
      · simpa [htest, Comparison.key] using hcompare .eq (v.coerceFor type)
    | ne =>
      simp only [Generator.compareQuery, Generator.compareExpr]
      split
      · simp [htest, hV.notInOne path hpath, Comparison.key]
      · simpa [htest, Comparison.key] using hcompare .ne (v.coerceFor type)
    | gt | gte | lt | lte =>
      simpa [Generator.compareQuery, Generator.compareExpr, htest] using
        hcompare _ (v.coerceFor type)
  | oneOf | noneOf =>
    obtain ⟨items, hitems⟩ : ∃ items, v.wrapList = .arr items := by
      cases v <;> exact ⟨_, rfl⟩
    simp [Generator.compareQuery, Generator.compareExpr, hitems, htest, hV.oneOf path hpath,
      hV.noneOf path hpath, exprHolds_negateExpr]
  | regex | contains | startsWith | endsWith =>
    simp [Generator.compareQuery, Generator.compareExpr, htest, hV.regex path hpath]
  | present =>
    simp only [Generator.compareQuery, Generator.compareExpr, Option.map_some, htest,
      hV.present path hpath]
    cases v.isFalse <;> rfl
  | isNumber => simp [Generator.compareQuery, Generator.compareExpr, holds_exprQuery]
  | between =>
    have hgte := fun w ↦ hcompare .gte w
    have hlte := fun w ↦ hcompare .lte w
    simp only [Comparison.key] at hgte hlte
    simp only [Generator.compareQuery, Generator.compareExpr]
    cases v.rangeBounds? with
    | none => rfl
    | some bounds => simp [htest, hV.range path hpath, hV.and, hgte, hlte]
  | notBetween =>
    have hlt := fun w ↦ hcompare .lt w
    have hgt := fun w ↦ hcompare .gt w
    simp only [Comparison.key] at hlt hgt
    simp only [Generator.compareQuery, Generator.compareExpr]
    cases v.rangeBounds? with
    | none => rfl
    | some bounds => simp [htest, hV.or, hlt, hgt]
  | longerThan =>
    simp only [Generator.compareQuery, Generator.compareExpr]
    cases hn : v.number? with
    | none => rfl
    | some n =>
      obtain ⟨⟨k, d⟩, hkd⟩ := Double.exists_toFraction? (hfinite n hn)
      simp only [Option.bind_eq_bind, Option.bind_some, (Double.sign_eq hkd).1]
      by_cases hk : k < 0
      · simp [hk, holds_exprQuery]
      · obtain ⟨hi, hlt⟩ := Double.floorInt64_lt_iff hkd (by omega) (hV.length_lt path)
        simp only [hk, decide_false, Bool.false_eq_true, if_false, Option.map_some,
          holds_index hV hpath hi, hV.longer path hpath n k d hkd (by omega), hlt, Bool.true_beq]
  | shorterThan =>
    simp only [Generator.compareQuery, Generator.compareExpr]
    cases hn : v.number? with
    | none => rfl
    | some n =>
      obtain ⟨⟨k, d⟩, hkd⟩ := Double.exists_toFraction? (hfinite n hn)
      simp only [Option.bind_eq_bind, Option.bind_some, (Double.sign_eq hkd).2]
      by_cases hk : k ≤ 0
      · simp [hk, holds_exprQuery]
      · obtain ⟨hi, hlt⟩ := Double.ceilInt64_lt_iff hkd (by omega) (hV.length_lt path)
        simp only [hk, decide_false, Bool.false_eq_true, if_false, Option.map_some,
          holds_index hV hpath hi, hV.shorter path hpath n k d hkd (by omega), hlt,
          Bool.false_beq, decide_not, Bool.not_not]
  | list l => rfl

private theorem holds_predicate (hV : V.FormLaws length g p) {q : ListQuery}
    (hpath : IsDocumentPath q.arrayPath) (hreference : q.reference = "$" ++ q.arrayPath) :
    V.holds q.predicate.toQuery = V.exprHolds q.predicate.toExpr := by
  unfold ListQuery.predicate
  split
  · exact holds_exprQuery _
  · split
    · exact holds_exprQuery _
    · rw [ListPredicate.toQuery, ListPredicate.toExpr, holds_test hpath.1,
        hV.isArray _ hpath, hreference]
  · exact holds_exprQuery _

private theorem map_holds_baseQuery (hV : V.FormLaws length g p) {field : String}
    (hfield : IsDocumentPath field) {op : Operator} {operand : Operand} {element : Option Json}
    (harray : ∀ d ∈ operand.list?, ∀ path ∈ d.arrayPath?, IsDocumentPath path)
    (hfinite : ∀ v ∈ operand.literal?, ∀ n, v.number? = some n → n.isFinite = true) :
    (g.baseQuery field op operand element).map V.holds =
      (g.baseExpr .document field op operand element).map V.exprHolds := by
  have hreference : Scope.document.reference field = "$" ++ field := hfield.reference
  cases operand with
  | list d =>
    simp only [Generator.baseQuery, Generator.baseExpr, Option.map_map]
    cases hq : ListQuery.ofListCondition? d (some op) .document element with
    | none => rfl
    | some q =>
      simp only [ListQuery.ofListCondition?, Option.bind_eq_bind, Option.bind_eq_some_iff] at hq
      obtain ⟨l, -, path, hpath, hq⟩ := hq
      have hpath : IsDocumentPath path := harray d rfl path hpath
      cases hq
      exact congrArg some (holds_predicate hV hpath hpath.reference)
  | nested b =>
    cases op with
    | list l => exact congrArg some (holds_predicate hV hfield hreference)
    | _ => rfl
  | literal v =>
    have hcompare := map_holds_compareQuery hV hfield op (g.resolver.fieldType? field)
      (hfinite v rfl)
    rw [← hreference] at hcompare
    cases op with
    | list l => exact congrArg some (holds_predicate hV hfield hreference)
    | _ => exact hcompare

end QueryReading

section Computed

variable {computed : String → Option Json} {lhs lhs' : Json}

/-- References may be replaced in what is compared. -/
theorem writesOut_compareExpr {g : Generator} (h : lhs.WritesOut computed lhs') (op : Operator)
    (v : Json) (type : Option FieldType) :
    Option.Rel (Json.WritesOut computed) (g.compareExpr lhs op v type)
      (g.compareExpr lhs' op v type) := by
  have hregex : ∀ pattern, (g.regexExpr lhs pattern).WritesOut computed
      (g.regexExpr lhs' pattern) := fun pattern ↦ .single _ (.member h (.refl _))
  cases op with
  | compare c => exact .some (.single _ (h.first _))
  | oneOf => exact .some (.single _ (h.first _))
  | noneOf => exact .some (.single _ (.first (.single _ (h.first _)) _))
  | regex | contains | startsWith | endsWith => exact .some (hregex _)
  | present => exact .some (.single _ (.first (.single _ h) _))
  | isNumber => exact .some (.single _ h)
  | between | notBetween =>
    simp only [Generator.compareExpr]
    cases v.rangeBounds? with
    | none => exact .none
    | some bounds =>
      exact .some (.single _ (.item (.single _ (h.first _)) (.first (.single _ (h.first _)) _)))
  | longerThan | shorterThan =>
    simp only [Generator.compareExpr]
    cases v.number? with
    | none => exact .none
    | some n =>
      refine .some ?_
      split
      · exact .refl _
      · exact .single _ (.first (.single _ (.single _ (h.first _))) _)
  | list l => exact .none

private theorem writesOut_arrayExpr {g : Generator} (h : lhs.WritesOut computed lhs')
    (op : Operator) (v : Json) :
    Option.Rel (Json.WritesOut computed) (g.arrayExpr lhs op v) (g.arrayExpr lhs' op v) := by
  have hsize : Option.Rel (Json.WritesOut computed)
      (some (.single "$gt" (.arr [sizeOfArray lhs, .int 0])))
      (some (.single "$gt" (.arr [sizeOfArray lhs', .int 0]))) :=
    .some (.single _ (.first (.single _ (.single _ (h.first _))) _))
  have hcompare := writesOut_compareExpr (g := g) h op v (some .array)
  cases op with
  | longerThan | shorterThan | present => exact hcompare
  | _ => exact hsize

private theorem writesOut_render {leaf : String → Option Json} (t : Formula)
    (h : ∀ path ∈ t.fields, ∀ e, leaf path = some e →
      IsDocumentPath path ∧ computed path = some e) :
    (t.render .document).WritesOut computed (t.renderWith leaf .document) := by
  rw [Formula.render]
  induction t with
  | number x => exact .refl _
  | field path =>
    rw [Formula.renderWith, Formula.renderWith, Option.getD_none]
    cases hleaf : leaf path with
    | none => exact .refl _
    | some e =>
      obtain ⟨hpath, hcomputed⟩ := h path List.mem_cons_self e hleaf
      rw [hpath.reference]
      exact .field hcomputed
  | binary op left right ihleft ihright =>
    have hleft := ihleft fun path hp ↦ h path (List.mem_append_left _ hp)
    have hright := ihright fun path hp ↦ h path (List.mem_append_right _ hp)
    exact .single _ (.item hleft (.first hright _))
  | call f arg ih => exact .single _ (ih h)
  | negate arg ih => exact .single _ (.item (.refl _) (.first (ih h) _))

end Computed

namespace QueryReading

variable {V : QueryReading} {length : String → Nat} {g : Generator} {p : Projection}

/-- Expressions that differ in replaced references hold alike. -/
theorem map_exprHolds_of_rel (hV : V.FormLaws length g p) {e e' : Option Json}
    (h : Option.Rel (Json.WritesOut (g.computed? p)) e e') :
    e.map V.exprHolds = e'.map V.exprHolds := by
  cases h with
  | none => rfl
  | some h => exact congrArg some (hV.written _ _ h)

private theorem map_holds_materializedQuery (hV : V.FormLaws length g p)
    (hlists : ∀ name ∈ p.lists, (g.listField? name).isSome = true) {c : Condition} {op : Operator}
    {field : String} {v : ListVariable} {l : ListOperator}
    (hv : g.resolver.classify field = .list v l) (hpath : IsDocumentPath v.key)
    (hcomputed : p.lists.contains v.key = true)
    (hfinite : ∀ w ∈ c.operand.literal?, ∀ n, w.number? = some n → n.isFinite = true) :
    (g.materializedQuery c op v.key l).map V.holds =
      (g.listReferenceExpr c op v).map V.exprHolds := by
  have hl := (Resolver.classify_eq_list_iff.mp hv).2
  have hcomputed' : g.computed? p v.key = g.listField? v.key := by
    rw [Generator.computed?, if_pos hcomputed]
  have hfield := hlists v.key (List.contains_iff_mem.mp hcomputed)
  simp only [Generator.listField?, Resolver.list?_key_of_classify hv, hl, Option.bind_eq_bind,
    Option.bind_some] at hcomputed' hfield
  have hliteral : ∀ n, (c.operand.literal?.getD .null).number? = some n → n.isFinite = true := by
    intro n hn
    cases hw : c.operand.literal? with
    | none => simp [hw, Json.number?, Json.toDouble?] at hn
    | some w =>
      rw [hw, Option.getD_some] at hn
      exact hfinite w hw n hn
  cases l with
  | quantifier k => cases hfield
  | aggregate a =>
    cases hq : g.variableQuery? v with
    | none => simp [hq] at hfield
    | some q =>
      rw [hq, Option.map_some] at hcomputed'
      have hwritten := map_exprHolds_of_rel hV (writesOut_compareExpr (g := g) (.field hcomputed')
        op (c.operand.literal?.getD .null) (some .number))
      have hforms := map_holds_compareQuery hV hpath op (some .number) hliteral
      simp only [Generator.materializedQuery, Generator.listReferenceExpr, hq,
        Generator.op_of_variableQuery? hl hq, Option.bind_eq_bind, Option.bind_some]
      exact map_holds_negated (hforms.trans hwritten) c.isNegated
  | filter =>
    cases hq : g.variableQuery? v with
    | none => simp [hq] at hfield
    | some q =>
      rw [hq, Option.map_some] at hcomputed'
      have hwritten := map_exprHolds_of_rel hV (writesOut_arrayExpr (g := g) (.field hcomputed')
        op (c.operand.literal?.getD .null))
      have hforms := map_holds_compareQuery hV hpath op (some .array) hliteral
      simp only [Generator.materializedQuery, Generator.listReferenceExpr, hq,
        Generator.op_of_variableQuery? hl hq, Option.bind_eq_bind, Option.bind_some]
      have hsize : (some (exprQuery (.single "$gt"
          (.arr [sizeOfArray (.str ("$" ++ v.key)), .int 0])))).map V.holds =
          (some (Json.single "$gt" (.arr [sizeOfArray (.str ("$" ++ v.key)), .int 0]))).map
            V.exprHolds := congrArg some (holds_exprQuery _)
      cases op with
      | longerThan | shorterThan | present =>
        exact map_holds_negated (hforms.trans hwritten) c.isNegated
      | _ => exact map_holds_negated (hsize.trans hwritten) c.isNegated

end QueryReading

/-- A condition is about fields of the document, and the numbers that it compares with are finite.
-/
structure Condition.NamesFields (c : Condition) : Prop where
  field : ∀ field ∈ c.fieldName?, IsDocumentPath field
  array : ∀ d ∈ c.operand.list?, ∀ path ∈ d.arrayPath?, IsDocumentPath path
  finite : ∀ v ∈ c.operand.literal?, ∀ n ∈ v.number?, n.isFinite = true

/-- Whether a condition names fields is decided by its paths and its numbers. -/
instance (c : Condition) : Decidable c.NamesFields :=
  decidable_of_iff ((∀ field ∈ c.fieldName?, IsDocumentPath field) ∧
      (∀ d ∈ c.operand.list?, ∀ path ∈ d.arrayPath?, IsDocumentPath path) ∧
      ∀ v ∈ c.operand.literal?, ∀ n ∈ v.number?, n.isFinite = true)
    ⟨fun ⟨h, h', h''⟩ ↦ ⟨h, h', h''⟩, fun ⟨h, h', h''⟩ ↦ ⟨h, h', h''⟩⟩

/-- The aggregate list variable that a name refers to, where it asks a question. -/
def Generator.aggregateLeaf? (g : Generator) (leaf : String) : Option Json :=
  match g.resolver.classify leaf with
  | .list v (.aggregate _) => (g.variableQuery? v).map ListQuery.aggregateExpr
  | _ => none

/-- The aggregates that the formula of an arithmetic variable names are computed by the projection.
-/
def Generator.ComputesLeaves (g : Generator) (p : Projection) (field : String) : Prop :=
  (g.resolver.classify field).isArithmetic = true →
    ∀ t ∈ g.resolver.expand? g.readFormula field, ∀ leaf ∈ t.fields,
      (g.aggregateLeaf? leaf).isSome = true → IsDocumentPath leaf ∧ p.lists.contains leaf = true

/-- An aggregate that a formula names is computed by the expression that is written out for it. -/
theorem Generator.listField?_of_aggregateLeaf {g : Generator} {leaf : String} {e : Json}
    (h : g.aggregateLeaf? leaf = some e) : g.listField? leaf = some e := by
  unfold aggregateLeaf? at h
  split at h
  · next v a hv =>
    obtain ⟨hlist, hop⟩ := Resolver.classify_eq_list_iff.mp hv
    simp only [listField?, hlist, hop, Option.bind_eq_bind, Option.bind_some]
    exact h
  · cases h

namespace QueryReading

variable {V : QueryReading} {length : String → Nat} {g : Generator} {p : Projection}

/-- A condition holds alike in both forms. -/
theorem map_holds_conditionQuery (hV : V.FormLaws length g p)
    (hlists : ∀ name ∈ p.lists, (g.listField? name).isSome = true) {c : Condition}
    {element : Option Json} (hc : c.NamesFields)
    (hleaves : ∀ field ∈ c.fieldName?, g.ComputesLeaves p field) :
    (g.conditionQuery p c element).map V.holds =
      (g.conditionExpr .document c element).map V.exprHolds := by
  simp only [Generator.conditionQuery, Generator.conditionExpr, Option.bind_eq_bind]
  cases hf : c.fieldName? with
  | none => rfl
  | some field =>
    have hfield := hc.field field hf
    cases ho : c.operator with
    | none => rfl
    | some op =>
      simp only [Option.bind_some]
      have hbase : (g.baseQuery field op c.operand element).map V.holds =
          (g.baseExpr .document field op c.operand element).map V.exprHolds :=
        map_holds_baseQuery hV hfield hc.array hc.finite
      cases hv : g.resolver.classify field with
      | base => exact map_holds_negated hbase c.isNegated
      | list v l =>
        have hkey : v.key = field := Catalog.key_of_list? (Resolver.classify_eq_list_iff.mp hv).1
        simp only
        split
        · next hcomputed =>
          exact map_holds_materializedQuery hV hlists hv (hkey ▸ hfield) hcomputed hc.finite
        · rw [Option.map_map]
          exact Option.map_congr fun e _ ↦ holds_exprQuery e
      | arithmetic v =>
        cases ht : g.resolver.expand? g.readFormula field with
        | none => exact map_holds_negated hbase c.isNegated
        | some t =>
          have hrender : (t.render .document).WritesOut (g.computed? p)
              (g.formulaExpr .document t) := by
            refine writesOut_render t fun leaf hleaf e he ↦ ?_
            have he : g.aggregateLeaf? leaf = some e := he
            obtain ⟨hpath, hcomputed⟩ := hleaves field hf (by rw [hv]; rfl) t ht leaf hleaf
              (by rw [he]; rfl)
            refine ⟨hpath, ?_⟩
            rw [Generator.computed?, if_pos hcomputed, Generator.listField?_of_aggregateLeaf he]
          simp only
          cases c.operand.literal? with
          | none => rfl
          | some w =>
            have hwritten := map_exprHolds_of_rel hV
              (writesOut_compareExpr (g := g) hrender op w (some .number))
            have hquery : ((g.compareExpr (t.render .document) op w (some .number)).map
                exprQuery).map V.holds =
                (g.compareExpr (t.render .document) op w (some .number)).map V.exprHolds := by
              rw [Option.map_map]
              exact Option.map_congr fun e _ ↦ holds_exprQuery e
            have hforms := map_holds_negated (hquery.trans hwritten) c.isNegated
            rw [Option.bind_map] at hforms
            exact hforms

private theorem map_exprHolds_combine (hV : V.FormLaws length g p) (logic : Logic)
    (parts : List Json) :
    (logic.combine parts).map V.exprHolds = logic.truth? (parts.map V.exprHolds) := by
  match parts with
  | [] => rfl
  | [part] => cases logic <;> simp [Logic.combine, Logic.truth?]
  | part :: part' :: parts =>
    cases logic
    · simp [Logic.combine, Logic.truth?, Logic.key, hV.and]
    · simp [Logic.combine, Logic.truth?, Logic.key, hV.or]

/-- What a condition is compiled to holds alike in both forms. -/
def ConditionAgrees (V : QueryReading) (g : Generator) (p : Projection) (c : Condition) : Prop :=
  (g.conditionQuery p c (g.operandExpr .document c)).map V.holds =
    (g.conditionExpr .document c (g.operandExpr .document c)).map V.exprHolds

/-- What a block is compiled to holds alike in both forms. -/
def BlockAgrees (V : QueryReading) (g : Generator) (p : Projection) (b : Block) : Prop :=
  (g.blockQuery p b).map V.holds = (g.blockExpr .document b).map V.exprHolds

private theorem conditionAgrees_of_incomplete {c : Condition} (h : ¬ c.isComplete = true) :
    V.ConditionAgrees g p c := by
  have hquery : g.conditionQuery p c (g.operandExpr .document c) = none :=
    Option.eq_none_iff_forall_ne_some.mpr fun q hq ↦ h (Generator.isComplete_of_conditionQuery hq)
  have hexpr : g.conditionExpr .document c (g.operandExpr .document c) = none :=
    Option.eq_none_iff_forall_ne_some.mpr fun e he ↦ h (Generator.isComplete_of_conditionExpr he)
  rw [ConditionAgrees, hquery, hexpr]
  rfl

mutual

/-- A block holds alike in both forms if its conditions and the negated blocks in it do. -/
theorem blockAgrees (hV : V.FormLaws length g p) : (b : Block) →
    (∀ c ∈ b.plainConditions, V.ConditionAgrees g p c) →
    (∀ a ∈ b.negatedBlocks, V.BlockAgrees g p a) → V.BlockAgrees g p b
  | ⟨id, logic, children, name, mustHold⟩, hc, hn => by
    by_cases hneg : (Block.mk id logic children name mustHold).isNegatedNamed = true
    · exact hn _ (by rw [Block.negatedBlocks, if_pos hneg]; exact List.mem_cons_self)
    · rw [Block.plainConditions, if_neg hneg] at hc
      rw [Block.negatedBlocks, if_neg hneg] at hn
      rw [BlockAgrees, Generator.blockQuery, Generator.blockExpr, if_neg hneg]
      simp only [hneg, Bool.false_eq_true, if_false, Option.map_id']
      rw [logic.map_holds_combine, map_exprHolds_combine hV, nodesAgree hV children hc hn]

/-- Nodes hold alike in both forms if the conditions among them and the negated blocks do. -/
theorem nodesAgree (hV : V.FormLaws length g p) : (nodes : List Node) →
    (∀ c ∈ Node.plainConditions nodes, V.ConditionAgrees g p c) →
    (∀ a ∈ Node.negatedBlocks nodes, V.BlockAgrees g p a) →
    (g.nodeQueries p nodes).map V.holds = (g.nodeExprs .document nodes).map V.exprHolds
  | [], _, _ => rfl
  | .block b :: rest, hc, hn => by
    have hb : V.BlockAgrees g p b := blockAgrees hV b (fun c h ↦ hc c (List.mem_append_left _ h))
      fun a h ↦ hn a (List.mem_append_left _ h)
    rw [Generator.nodeQueries_block, Generator.nodeExprs_cons, List.map_append, List.map_append,
      ← Option.toList_map, ← Option.toList_map, hb, Generator.nodeExpr,
      nodesAgree hV rest (fun c h ↦ hc c (List.mem_append_right _ h))
        fun a h ↦ hn a (List.mem_append_right _ h)]
  | .condition c :: rest, hc, hn => by
    rw [Node.plainConditions] at hc
    have hcondition : V.ConditionAgrees g p c := by
      by_cases hcomplete : c.isComplete = true
      · rw [if_pos hcomplete] at hc
        exact hc c List.mem_cons_self
      · exact conditionAgrees_of_incomplete hcomplete
    have hrest := nodesAgree hV rest (fun c' h ↦ hc c' (by
      split
      · exact List.mem_cons_of_mem _ h
      · exact h)) hn
    rw [Generator.nodeQueries_condition, Generator.nodeExprs_cons, List.map_append,
      List.map_append, ← Option.toList_map, ← Option.toList_map, hcondition,
      Generator.nodeExpr_condition, hrest]

end

end QueryReading

mutual

/-- The blocks that compiling a block to a query visits: the block itself and those within it that
are in no negated named block. -/
def Block.visited : Block → List Block
  | b@⟨_, _, children, _, _⟩ => b :: if b.isNegatedNamed then [] else Node.visited children

/-- The blocks that compiling nodes to queries visits. -/
def Node.visited : List Node → List Block
  | [] => []
  | .block b :: rest => Block.visited b ++ Node.visited rest
  | .condition _ :: rest => Node.visited rest

end

mutual

/-- What is in a visited block is in the block itself. -/
theorem Block.subset_of_visited {a : Block} : (b : Block) → a ∈ b.visited →
    a.plainConditions ⊆ b.plainConditions ∧ a.negatedBlocks ⊆ b.negatedBlocks
  | ⟨id, logic, children, name, mustHold⟩, h => by
    rw [Block.visited] at h
    rcases List.mem_cons.mp h with rfl | h
    · exact ⟨List.Subset.refl _, List.Subset.refl _⟩
    · split at h
      · cases h
      · next hneg =>
        rw [Block.plainConditions, if_neg hneg, Block.negatedBlocks, if_neg hneg]
        exact Node.subset_of_visited children h

/-- What is in a visited block is in the nodes. -/
theorem Node.subset_of_visited {a : Block} : (nodes : List Node) → a ∈ Node.visited nodes →
    a.plainConditions ⊆ Node.plainConditions nodes ∧
      a.negatedBlocks ⊆ Node.negatedBlocks nodes
  | [], h => by cases h
  | .block b :: rest, h => by
    rw [Node.plainConditions, Node.negatedBlocks]
    rcases List.mem_append.mp h with h | h
    · obtain ⟨hc, hn⟩ := Block.subset_of_visited b h
      exact ⟨List.subset_append_of_subset_left _ hc, List.subset_append_of_subset_left _ hn⟩
    · obtain ⟨hc, hn⟩ := Node.subset_of_visited rest h
      exact ⟨List.subset_append_of_subset_right _ hc, List.subset_append_of_subset_right _ hn⟩
  | .condition c :: rest, h => by
    obtain ⟨hc, hn⟩ := Node.subset_of_visited rest h
    rw [Node.plainConditions, Node.negatedBlocks]
    refine ⟨?_, hn⟩
    split
    · exact List.subset_cons_of_subset _ hc
    · exact hc

end

namespace Context

variable {ctx : Context} {blocks : List Block}

/-- The dependencies of an arithmetic variable have the aggregates that its formula names, which are
fields of the document. -/
def FindsAggregates (ctx : Context) (field : String) : Prop :=
  (ctx.resolver.classify field).isArithmetic = true →
    ∀ t ∈ ctx.resolver.expand? ctx.readFormula field, ∀ leaf ∈ t.fields,
      (ctx.generator.aggregateLeaf? leaf).isSome = true →
        IsDocumentPath leaf ∧ leaf ∈ (ctx.resolver.dependencies field).listVariables

/-- Whether the aggregates of a formula are found is decided for one leaf after the other. -/
instance (ctx : Context) (field : String) : Decidable (ctx.FindsAggregates field) :=
  inferInstanceAs (Decidable ((ctx.resolver.classify field).isArithmetic = true →
    ∀ t ∈ ctx.resolver.expand? ctx.readFormula field, ∀ leaf ∈ t.fields,
      (ctx.generator.aggregateLeaf? leaf).isSome = true →
        IsDocumentPath leaf ∧ leaf ∈ (ctx.resolver.dependencies field).listVariables))

/-- The projection computes the aggregates that are found among the dependencies of a condition. -/
theorem computesLeaves_of_findsAggregates {c : Condition} {field : String}
    (hc : c ∈ blocks.flatMap Block.plainConditions) (hf : c.fieldName? = some field)
    (h : ctx.FindsAggregates field) :
    ctx.generator.ComputesLeaves (ctx.projection blocks) field := by
  intro harithmetic t ht leaf hleaf hsome
  obtain ⟨hpath, hfound⟩ := h harithmetic t ht leaf hleaf hsome
  refine ⟨hpath, List.contains_iff_mem.mpr ?_⟩
  obtain ⟨e, he⟩ := Option.isSome_iff_exists.mp hsome
  rw [projection, Generator.projection_lists_eq, List.mem_filter,
    Generator.listField?_of_aggregateLeaf he]
  refine ⟨Usage.mem_listVariables_of_condition hc (List.mem_append_left _ ?_), rfl⟩
  cases hv : ctx.resolver.classify field with
  | arithmetic v => simpa [Resolver.conditionLists, hf, hv] using hfound
  | base =>
    rw [show ctx.generator.resolver.classify field = .base from hv] at harithmetic
    cases harithmetic
  | list v l =>
    rw [show ctx.generator.resolver.classify field = .list v l from hv] at harithmetic
    cases harithmetic

/-- A negated named block holds alike in both forms, if equal ones are compiled alike. -/
theorem blockAgrees_of_negated {V : QueryReading} {length : String → Nat} {b : Block}
    (hV : V.FormLaws length ctx.generator (ctx.projection blocks))
    (hfinite : ∀ b ∈ blocks.flatMap Block.negatedBlocks, b.IsFinite)
    (halike : ∀ b ∈ blocks.flatMap Block.negatedBlocks,
      ∀ b' ∈ blocks.flatMap Block.negatedBlocks, b.same b' = true →
      ctx.generator.childrenExpr .document b = ctx.generator.childrenExpr .document b')
    (hb : b ∈ blocks.flatMap Block.negatedBlocks) :
    V.BlockAgrees ctx.generator (ctx.projection blocks) b := by
  have hexpr : ctx.generator.blockExpr .document b =
      (ctx.generator.childrenExpr .document b).map negateExpr := by
    cases b
    rw [Generator.blockExpr, isNegatedNamed_of_mem hb]
    rfl
  rw [QueryReading.BlockAgrees, hexpr]
  cases he : ctx.generator.childrenExpr .document b with
  | none =>
    rw [(not_computed hfinite hb he).1]
    rfl
  | some e =>
    obtain ⟨n, hn, href, hfirst⟩ := exists_computed hfinite hb (by rw [he]; rfl)
    obtain ⟨hmem, hsame⟩ := firstSame?_spec hfirst
    have hword := (Usage.isWord_of_mem_negatedBlocks (mem_negatedBlocks_of_computed hn)).1
    have hn' := hV.negated n hn e (by rw [halike n.2 hmem b hb hsame, he])
    rw [RefersTo] at href
    rw [href, Option.map_some, Option.map_some, Option.map_some,
      QueryReading.holds_test hword.beginsWith_dollar, hn', QueryReading.exprHolds_negateExpr]

/-- The two forms of every block that the match visits agree, in any context in which no definition
leads back to itself: under each reading of tests and expressions that obeys the laws, both are
there or none is, and they hold alike. This needs fields to be fields of the document, numbers to be
finite, usage analysis to find the aggregates that formulas name, and equal negated blocks to be
compiled alike. -/
theorem forms_agree (hacyclic : ∀ name, ¬ TransGen ctx.resolver.Enters name name)
    (hfields : ∀ c ∈ blocks.flatMap Block.plainConditions, c.NamesFields)
    (hfound : ∀ c ∈ blocks.flatMap Block.plainConditions, ∀ field ∈ c.fieldName?,
      ctx.FindsAggregates field)
    (hfinite : ∀ b ∈ blocks.flatMap Block.negatedBlocks, b.IsFinite)
    (halike : ∀ b ∈ blocks.flatMap Block.negatedBlocks,
      ∀ b' ∈ blocks.flatMap Block.negatedBlocks, b.same b' = true →
      ctx.generator.childrenExpr .document b = ctx.generator.childrenExpr .document b')
    (V : QueryReading) (length : String → Nat)
    (hV : V.FormLaws length ctx.generator (ctx.projection blocks)) :
    ∃ pipeline, ctx.compile? blocks = some pipeline ∧
      pipeline.filter.getD [] = ctx.filterMembers blocks ∧
      ∀ b ∈ blocks.flatMap Block.visited,
        (ctx.generator.blockQuery (ctx.projection blocks) b).map V.holds =
          (ctx.generator.blockExpr .document b).map V.exprHolds := by
  obtain ⟨pipeline, hcompile, -, hfilter, -⟩ := ctx.exists_compile?_eq hacyclic blocks
  refine ⟨pipeline, hcompile, hfilter, fun b hb ↦ ?_⟩
  obtain ⟨root, hroot, hb⟩ := List.mem_flatMap.mp hb
  obtain ⟨hconditions, hnegated⟩ := Block.subset_of_visited root hb
  refine QueryReading.blockAgrees hV b (fun c hc ↦ ?_) fun a ha ↦ ?_
  · have hc : c ∈ blocks.flatMap Block.plainConditions :=
      List.mem_flatMap.mpr ⟨root, hroot, hconditions hc⟩
    refine QueryReading.map_holds_conditionQuery hV (fun name hn ↦ ?_) (hfields c hc)
      fun field hf ↦ computesLeaves_of_findsAggregates hc hf (hfound c hc field hf)
    rw [projection, Generator.projection_lists_eq] at hn
    exact (List.mem_filter.mp hn).2
  · exact blockAgrees_of_negated hV hfinite halike
      (List.mem_flatMap.mpr ⟨root, hroot, hnegated ha⟩)

/-- A context with an array `prv` of records with a number `jd`, a list variable of some name for
the least `jd`, and an arithmetic variable `offset` for what that is above 18. -/
def offsets (least : String) : Context where
  schema := .ofFields
    [⟨"prv", .node ⟨"array", none, none,
      some (.node ⟨"record", some "P", some [⟨"jd", .named "double", none⟩], none⟩)⟩, none⟩]
  catalog := ⟨[⟨"offset", "offset = " ++ least ++ " - 18"⟩],
    [⟨least, ⟨"prv", some (.list (.aggregate .min)), some "jd", .literal .null, none, none,
      none⟩⟩]⟩
  settings := { Settings.default with useParseCache := false }

/-- A filter that asks for a positive `offset`. -/
def offsetFilter : Block where
  id := "root"
  logic := .and
  children := [.condition ⟨"c", some "offset", some (.compare .gt), .literal (.int 0), none⟩]
  name := none
  mustHold := true

/-- A filter that asks for a positive `offset` and for nothing that is too faint. -/
def offsetFilters : List Block :=
  [offsetFilter, ⟨"b", .and,
    [.condition ⟨"d", some "mag", some (.compare .gt), .literal (.int 20), none⟩],
    some "too faint", false⟩]

/-- Where the least `jd` is called `low`, the two forms of the filter agree in a document without
fields. -/
theorem offsetFilters_forms_agree :
    ∃ pipeline, (offsets "low").compile? offsetFilters = some pipeline ∧
      pipeline.filter.getD [] = (offsets "low").filterMembers offsetFilters ∧
      ∀ b ∈ offsetFilters.flatMap Block.visited,
        ((offsets "low").generator.blockQuery ((offsets "low").projection offsetFilters) b).map
            (emptyReading .nothing (offsets "low").generator
              ((offsets "low").projection offsetFilters)).holds =
          ((offsets "low").generator.blockExpr .document b).map
            (emptyReading .nothing (offsets "low").generator
              ((offsets "low").projection offsetFilters)).exprHolds := by
  have hnegated : offsetFilters.flatMap Block.negatedBlocks = offsetFilters.drop 1 := by
    rfl
  have halike : ∀ b ∈ offsetFilters.flatMap Block.negatedBlocks,
      ∀ b' ∈ offsetFilters.flatMap Block.negatedBlocks, b.same b' = true →
      (offsets "low").generator.childrenExpr .document b =
        (offsets "low").generator.childrenExpr .document b' := by
    rw [hnegated]
    intro b hb b' hb' _
    rw [List.mem_singleton.mp hb, List.mem_singleton.mp hb']
  exact forms_agree ((offsets "low").resolver.acyclic_iff.mpr (by decide +kernel))
    (by decide +kernel) (by decide +kernel) (by decide +kernel) halike _ _
    (QueryReading.formLaws_empty _ _)

/-- Where the least `jd` has a blank in its name, usage analysis does not find it in the formula:
the match refers to a field that the projection does not compute, and the forms differ in a document
where least values are positive. -/
theorem offsetFilter_forms_differ :
    (offsets "min jd").catalog.validate (offsets "min jd").schema = .ok () ∧
    (offsets "min jd").resolver.isCircular [offsetFilter]
      ((offsets "min jd").usage [offsetFilter]) = false ∧
    (∀ c ∈ [offsetFilter].flatMap Block.plainConditions, c.NamesFields) ∧
    ∃ V : QueryReading, V.FormLaws (fun _ ↦ 0) (offsets "min jd").generator
        ((offsets "min jd").projection [offsetFilter]) ∧
      ¬ ∀ b ∈ [offsetFilter].flatMap Block.visited,
        ((offsets "min jd").generator.blockQuery
            ((offsets "min jd").projection [offsetFilter]) b).map V.holds =
          ((offsets "min jd").generator.blockExpr .document b).map V.exprHolds := by
  refine ⟨rfl, by decide +kernel, by decide +kernel, emptyReading (.number true) _ _,
    QueryReading.formLaws_emptyReading nodup_computedBlocks fun name e he ↦ ?_, fun h ↦ ?_⟩
  · -- no list variable is used, so that none is computed
    have hnone : ∀ c ∈ [offsetFilter].flatMap Block.plainConditions,
        c.operand.elementConditions.isEmpty = true ∧ ∀ field ∈ c.fieldName?,
          ∀ a ∈ field :: (offsets "min jd").resolver.dependents field,
            ((offsets "min jd").resolver.classify a).isList = false := by decide +kernel
    unfold Generator.computed? at he
    split at he
    · next hname =>
      have hused := Generator.projection_lists.1.mem (List.contains_iff_mem.mp hname)
      obtain ⟨a, ha, -⟩ := Usage.mem_listVariables_iff.mp hused
      obtain ⟨c, hc, ha⟩ := List.mem_flatMap.mp ha
      obtain ⟨helement, hfield⟩ := hnone c hc
      rw [Resolver.elementLists, List.isEmpty_iff.mp helement, List.flatMap_nil,
        List.append_nil] at ha
      obtain ⟨field, hf, hmem, hlist⟩ := Resolver.isList_of_mem_conditionLists ha
      have hlist' := hfield field hf a hmem
      rw [hlist'] at hlist
      cases hlist
    · cases he
  · have hroot := h offsetFilter
      (List.mem_flatMap.mpr ⟨offsetFilter, List.mem_cons_self, List.mem_cons_self⟩)
    revert hroot
    decide +kernel

end Context

end FilterPipeline
