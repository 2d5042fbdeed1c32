import FilterPipeline.Proofs.AlikeLiterals
import FilterPipeline.Proofs.TwoForms

/-!
# Operands as the operators emit them

Comparisons coerce their literal to the type of the field. Membership keeps the items of its list as
they are, and ranges make their ends numbers whatever the type is. Main statement: where that comes
to the same, membership in a list of one holds when equality does, and a range when both of its
comparisons do (`Generator.operands_alike`).
-/

namespace FilterPipeline

open Fragment

namespace Json

/-- Whether a literal is its own operand in comparisons with a field of some type: any value but a
text that means something else there. -/
def IsOwnOperand (type : Option FieldType) : Json → Prop
  | .str s =>
    match type with
    | some .string => True
    | some .boolean => Text.trimmed s ≠ "true" ∧ Text.trimmed s ≠ "false"
    | _ => finiteNumber? s = none
  | _ => True

/-- Whether a literal is the same operand as the end of a range and in a comparison with a field of
some type: numeric text is a number in both, or neither changes the literal. -/
def IsRangeEnd (type : Option FieldType) (v : Json) : Prop :=
  (type ≠ some .string ∧ type ≠ some .boolean) ∨ (v.IsOwnOperand none ∧ v.IsOwnOperand type)

variable {v : Json} {s : String} {type : Option FieldType}

/-- For a field that holds neither texts nor truth values, numeric text is a number. -/
theorem coerceFor_of_ne (hstring : type ≠ some .string) (hboolean : type ≠ some .boolean)
    (v : Json) : v.coerceFor type = v.coerceNumber := by
  unfold coerceFor
  split
  · exact absurd rfl hstring
  · exact absurd rfl hboolean
  · rfl

/-- A computed number is neither a text nor a truth value. -/
theorem string?_bool?_ofDouble (x : Double) :
    (ofDouble x).string? = none ∧ (ofDouble x).bool? = none := by
  unfold ofDouble
  split
  · split <;> exact ⟨rfl, rfl⟩
  · split <;> exact ⟨rfl, rfl⟩

/-- Numeric text is the only text that becomes a number. -/
theorem coerceNumber_str_eq_iff : (str s).coerceNumber = .str s ↔ finiteNumber? s = none := by
  rw [coerceNumber]
  cases finiteNumber? s with
  | none => exact iff_of_true rfl rfl
  | some x =>
    refine iff_of_false (fun h ↦ ?_) (Option.some_ne_none x)
    have hnumber := (string?_bool?_ofDouble x).1
    rw [show ofDouble x = .str s from h] at hnumber
    cases hnumber

private theorem bool?_coerceNumber_str (s : String) : (str s).coerceNumber.bool? = none := by
  rw [coerceNumber]
  cases finiteNumber? s with
  | none => rfl
  | some x => exact (string?_bool?_ofDouble x).2

/-- The words for truth values are the only texts that become truth values. -/
theorem coerceFor_boolean_str_cases (s : String) :
    ((str s).coerceFor (some .boolean) = .str s ∧
        Text.trimmed s ≠ "true" ∧ Text.trimmed s ≠ "false") ∨
      ∃ b, (str s).coerceFor (some .boolean) = .bool b ∧
        (Text.trimmed s = "true" ∨ Text.trimmed s = "false") := by
  unfold coerceFor
  dsimp only
  split
  · next h => exact Or.inr ⟨true, rfl, Or.inl h⟩
  · next h => exact Or.inr ⟨false, rfl, Or.inr h⟩
  · next htrue hfalse => exact Or.inl ⟨rfl, htrue, hfalse⟩

/-- The operand of a comparison is the literal itself exactly when that is its own operand. -/
theorem coerceFor_eq_self_iff : v.coerceFor type = v ↔ v.IsOwnOperand type := by
  cases v with
  | str s =>
    cases type with
    | none => exact coerceNumber_str_eq_iff
    | some t =>
      cases t with
      | string => exact iff_of_true rfl trivial
      | boolean =>
        rcases coerceFor_boolean_str_cases s with ⟨hkept, hword⟩ | ⟨b, hbool, hword⟩
        · exact iff_of_true hkept hword
        · rw [hbool]
          exact iff_of_false nofun fun h ↦ hword.elim h.1 h.2
      | number | array | object => exact coerceNumber_str_eq_iff
  | null | bool _ | int _ | double _ | arr _ | obj _ =>
    exact iff_of_true (coerceFor_of_not_string rfl type) trivial

/-- The end of a range is the operand of a comparison exactly when the literal is the same in both.
-/
theorem coerceNumber_eq_coerceFor_iff :
    v.coerceNumber = v.coerceFor type ↔ v.IsRangeEnd type := by
  by_cases hnumeric : type ≠ some .string ∧ type ≠ some .boolean
  · exact iff_of_true (coerceFor_of_ne hnumeric.1 hnumeric.2 v).symm (Or.inl hnumeric)
  · have hnone : v.coerceNumber = v ↔ v.IsOwnOperand none := @coerceFor_eq_self_iff v none
    rw [IsRangeEnd, or_iff_right hnumeric, ← hnone, ← coerceFor_eq_self_iff]
    refine ⟨fun h ↦ ?_, fun h ↦ h.1.trans h.2.symm⟩
    have hself : v.coerceFor type = v := by
      cases v with
      | str s =>
        obtain rfl | rfl : type = some .string ∨ type = some .boolean := by
          rwa [not_and_or, not_ne_iff, not_ne_iff] at hnumeric
        · rfl
        · rcases coerceFor_boolean_str_cases s with ⟨hkept, -⟩ | ⟨b, hbool, -⟩
          · exact hkept
          · have hnone := bool?_coerceNumber_str s
            rw [h, hbool] at hnone
            cases hnone
      | null | bool _ | int _ | double _ | arr _ | obj _ => exact coerceFor_of_not_string rfl type
    exact ⟨h.trans hself, hself⟩

end Json

/-- What a comparison is compiled to: a test of a path, or an expression about another one. -/
inductive ComparisonForm where
  | query (field : String)
  | expr (lhs : Json)

/-- A comparison in one of the forms. -/
def Generator.compareAs (g : Generator) :
    ComparisonForm → Operator → Json → Option FieldType → Option Json
  | .query field => g.compareQuery field
  | .expr lhs => g.compareExpr lhs

namespace ComparisonForm

/-- The operands that stand under a key: the items of a list for membership, and else just one. -/
def operandsOf (key : String) (v : Json) : List Json :=
  if key = "$in" ∨ key = "$nin" then v.items?.getD [] else [v]

/-- The operands in the tests of a path. -/
def testOperands : Json → List Json
  | .obj [(_, .obj tests)] => tests.flatMap fun (key, v) ↦ operandsOf key v
  | _ => []

/-- The operands in a query: those of one test, or of several that are combined. -/
def queryOperands : Json → List Json
  | .obj [(_, .arr queries)] => queries.flatMap testOperands
  | q => testOperands q

/-- The operands in an expression that compares something. -/
def comparedOperands : Json → List Json
  | .obj [(key, .arr [_, v])] => operandsOf key v
  | _ => []

/-- The operands in an expression: those of one comparison, or of several that are combined. -/
def exprOperands : Json → List Json
  | .obj [("$and", .arr es)] => es.flatMap comparedOperands
  | .obj [("$or", .arr es)] => es.flatMap comparedOperands
  | .obj [("$not", .arr es)] => es.flatMap comparedOperands
  | e => comparedOperands e

/-- The operands in what a comparison is compiled to. -/
def operands : ComparisonForm → Json → List Json
  | query _, q => queryOperands q
  | expr _, e => exprOperands e

/-- Whether a comparison holds. -/
def holds (V : QueryReading) : ComparisonForm → Json → Bool
  | query _, q => V.holds q
  | expr _, e => V.exprHolds e

end ComparisonForm

namespace Generator

variable (g : Generator) (form : ComparisonForm) (type : Option FieldType)

/-- The operands that an operator emits for a literal. -/
def operands? (op : Operator) (v : Json) : Option (List Json) :=
  (g.compareAs form op v type).map form.operands

/-- Whether an operator holds for a literal. -/
def truth? (V : QueryReading) (op : Operator) (v : Json) : Option Bool :=
  (g.compareAs form op v type).map (form.holds V)

/-- A comparison emits the operand that the literal is for the type. -/
theorem operands?_compare (c : Comparison) (v : Json) :
    g.operands? form type (.compare c) v = some [v.coerceFor type] := by
  cases form with
  | query field =>
    cases c <;> simp only [operands?, compareAs, compareQuery]
    case eq => split <;> rfl
    case ne => split <;> rfl
    all_goals rfl
  | expr lhs => cases c <;> rfl

/-- Membership emits the items of the list as they are. -/
theorem operands?_membership {op : Operator} (hop : op = .oneOf ∨ op = .noneOf)
    (items : List Json) : g.operands? form type op (.arr items) = some items := by
  have hitems (key : String) (h : key = "$in" ∨ key = "$nin") :
      ComparisonForm.operandsOf key (.arr items) = items := if_pos h
  rcases hop with rfl | rfl <;> cases form <;>
    simp [operands?, compareAs, compareQuery, compareExpr, Json.wrapList, Json.single, negateExpr,
      ComparisonForm.operands, ComparisonForm.queryOperands, ComparisonForm.testOperands,
      ComparisonForm.exprOperands, ComparisonForm.comparedOperands, hitems]

/-- A range emits its ends as numbers where they are numeric. -/
theorem operands?_range {op : Operator} (hop : op = .between ∨ op = .notBetween)
    (low high : Json) :
    g.operands? form type op (.arr [low, high]) =
      some [low.coerceNumber, high.coerceNumber] := by
  rcases hop with rfl | rfl <;> cases form <;> rfl

/-- Membership emits what comparisons emit for each item exactly when all items are their own
operands. -/
theorem operands?_membership_eq_iff {op : Operator} (hop : op = .oneOf ∨ op = .noneOf)
    (items : List Json) :
    g.operands? form type op (.arr items) = some (items.map (·.coerceFor type)) ↔
      ∀ v ∈ items, v.IsOwnOperand type := by
  have hself : items.map (·.coerceFor type) = items ↔ ∀ v ∈ items, v.coerceFor type = v := by
    simpa using List.map_inj_left (l := items) (f := (·.coerceFor type)) (g := id)
  rw [g.operands?_membership form type hop, Option.some_inj, eq_comm, hself]
  simp only [Json.coerceFor_eq_self_iff]

/-- A range emits what comparisons emit for its ends exactly when both are the same in a range. -/
theorem operands?_range_eq_iff {op : Operator} (hop : op = .between ∨ op = .notBetween)
    (low high : Json) :
    g.operands? form type op (.arr [low, high]) =
        some [low.coerceFor type, high.coerceFor type] ↔
      low.IsRangeEnd type ∧ high.IsRangeEnd type := by
  rw [g.operands?_range form type hop, Option.some_inj, List.cons.injEq, List.cons.injEq,
    and_iff_left rfl, Json.coerceNumber_eq_coerceFor_iff, Json.coerceNumber_eq_coerceFor_iff]

end Generator

namespace QueryReading

variable {V : QueryReading} {length : String → Nat} {g : Generator} {p : Projection}
  {path : String} {form : ComparisonForm}

section Truths

variable (hV : V.FormLaws length g p) (hpath : IsDocumentPath path)

include hV hpath

/-- One of a single value is equality, and none of it is inequality. -/
theorem test_singleton (v : Json) :
    V.test path (.single "$in" (.arr [v])) = V.test path (.single "$eq" v) ∧
      V.test path (.single "$nin" (.arr [v])) = V.test path (.single "$ne" v) :=
  ⟨(hV.inOne path hpath v).trans (hV.compare path hpath .eq v).symm,
    (hV.notInOne path hpath v).trans (hV.compare path hpath .ne v).symm⟩

variable (hform : form = .query path ∨ form = .expr (.str ("$" ++ path)))
  (type : Option FieldType)

include hform

/-- A comparison holds when the test of the path for its operand does. -/
theorem truth?_compare (c : Comparison) (v : Json) :
    g.truth? form type V (.compare c) v =
      some (V.test path (.single c.key (v.coerceFor type))) := by
  rcases hform with rfl | rfl
  · have htest := holds_test (V := V) hpath.1
    obtain ⟨hin, hnin⟩ := test_singleton hV hpath (v.coerceFor type)
    cases c <;> simp only [Generator.truth?, Generator.compareAs, Generator.compareQuery]
    case eq => split <;> simp [ComparisonForm.holds, htest, hin, Comparison.key]
    case ne => split <;> simp [ComparisonForm.holds, htest, hnin, Comparison.key]
    all_goals simp [ComparisonForm.holds, htest]
  · rw [hV.compare path hpath]
    rfl

private theorem truth?_singleton (v : Json) :
    g.truth? form type V .oneOf (.arr [v]) = some (V.test path (.single "$eq" v)) ∧
      g.truth? form type V .noneOf (.arr [v]) = some (V.test path (.single "$ne" v)) := by
  obtain ⟨hin, hnin⟩ := test_singleton hV hpath v
  rcases hform with rfl | rfl
  · have htest := holds_test (V := V) hpath.1
    constructor <;> simp [Generator.truth?, Generator.compareAs, Generator.compareQuery,
      Json.wrapList, ComparisonForm.holds, htest, hin, hnin]
  · simp only [Generator.truth?, Generator.compareAs, Generator.compareExpr, Json.wrapList,
      ComparisonForm.holds, Option.map_some, exprHolds_negateExpr]
    rw [← hV.noneOf path hpath, ← hV.oneOf path hpath, hin, hnin]
    exact ⟨rfl, rfl⟩

private theorem truth?_between (low high : Json) :
    g.truth? form type V .between (.arr [low, high]) =
        some (V.test path (.single "$gte" low.coerceNumber) &&
          V.test path (.single "$lte" high.coerceNumber)) ∧
      g.truth? form type V .notBetween (.arr [low, high]) =
        some (V.test path (.single "$lt" low.coerceNumber) ||
          V.test path (.single "$gt" high.coerceNumber)) := by
  have hcompare := hV.compare path hpath
  have hgte := hcompare .gte low.coerceNumber
  have hlte := hcompare .lte high.coerceNumber
  have hlt := hcompare .lt low.coerceNumber
  have hgt := hcompare .gt high.coerceNumber
  simp only [Comparison.key] at hgte hlte hlt hgt
  rcases hform with rfl | rfl
  · have htest := holds_test (V := V) hpath.1
    constructor <;> simp [Generator.truth?, Generator.compareAs, Generator.compareQuery,
      Json.rangeBounds?, ComparisonForm.holds, htest, hV.range path hpath]
  · constructor <;> simp [Generator.truth?, Generator.compareAs, Generator.compareExpr,
      Json.rangeBounds?, ComparisonForm.holds, hV.and, hV.or, hgte, hlte, hlt, hgt]

/-- Membership in a list of one holds as equality or inequality do, where the value is its own
operand. -/
theorem truth?_singleton_eq {v : Json} (hv : v.IsOwnOperand type) :
    g.truth? form type V .oneOf (.arr [v]) = g.truth? form type V (.compare .eq) v ∧
      g.truth? form type V .noneOf (.arr [v]) = g.truth? form type V (.compare .ne) v := by
  obtain ⟨hone, hnone⟩ := truth?_singleton hV hpath hform type v
  have hcompare := fun c ↦ truth?_compare hV hpath hform type c v
  rw [Json.coerceFor_eq_self_iff.mpr hv] at hcompare
  exact ⟨hone.trans (hcompare .eq).symm, hnone.trans (hcompare .ne).symm⟩

/-- A range holds as its two comparisons do, where its ends are the same in both. -/
theorem truth?_between_eq {low high : Json} (hlow : low.IsRangeEnd type)
    (hhigh : high.IsRangeEnd type) :
    g.truth? form type V .between (.arr [low, high]) =
        Option.map₂ (· && ·) (g.truth? form type V (.compare .gte) low)
          (g.truth? form type V (.compare .lte) high) ∧
      g.truth? form type V .notBetween (.arr [low, high]) =
        Option.map₂ (· || ·) (g.truth? form type V (.compare .lt) low)
          (g.truth? form type V (.compare .gt) high) := by
  obtain ⟨hbetween, hnot⟩ := truth?_between hV hpath hform type low high
  have hcompare := truth?_compare hV hpath hform type
  rw [Json.coerceNumber_eq_coerceFor_iff.mpr hlow,
    Json.coerceNumber_eq_coerceFor_iff.mpr hhigh] at hbetween hnot
  simp only [hcompare]
  exact ⟨hbetween, hnot⟩

end Truths

end QueryReading

/-- In both forms comparisons emit the operand that their literal is for the type. Membership emits
the same for each item exactly when all of them are their own operands; a range emits the same for
its ends exactly when both are the same in a range. Where that is so, membership in a list of one
holds as equality or inequality do, and a range as its two comparisons. -/
theorem Generator.operands_alike (g : Generator) (type : Option FieldType) :
    (∀ form,
      (∀ c v, g.operands? form type (.compare c) v = some [v.coerceFor type]) ∧
      (∀ op, op = .oneOf ∨ op = .noneOf → ∀ items,
        (g.operands? form type op (.arr items) = some (items.map (·.coerceFor type)) ↔
          ∀ v ∈ items, v.IsOwnOperand type)) ∧
      ∀ op, op = .between ∨ op = .notBetween → ∀ low high,
        (g.operands? form type op (.arr [low, high]) =
            some [low.coerceFor type, high.coerceFor type] ↔
          low.IsRangeEnd type ∧ high.IsRangeEnd type)) ∧
    ∀ V length p, QueryReading.FormLaws V length g p → ∀ path, IsDocumentPath path → ∀ form,
      form = .query path ∨ form = .expr (.str ("$" ++ path)) →
      (∀ v, v.IsOwnOperand type →
        g.truth? form type V .oneOf (.arr [v]) = g.truth? form type V (.compare .eq) v ∧
        g.truth? form type V .noneOf (.arr [v]) = g.truth? form type V (.compare .ne) v) ∧
      ∀ low high, low.IsRangeEnd type → high.IsRangeEnd type →
        g.truth? form type V .between (.arr [low, high]) =
          Option.map₂ (· && ·) (g.truth? form type V (.compare .gte) low)
            (g.truth? form type V (.compare .lte) high) ∧
        g.truth? form type V .notBetween (.arr [low, high]) =
          Option.map₂ (· || ·) (g.truth? form type V (.compare .lt) low)
            (g.truth? form type V (.compare .gt) high) := by
  constructor
  · intro form
    refine ⟨g.operands?_compare form type, ?_, ?_⟩
    · intro op hop items
      exact g.operands?_membership_eq_iff form type hop items
    · intro op hop low high
      exact g.operands?_range_eq_iff form type hop low high
  · intro V length p hV path hpath form hform
    constructor
    · intro v hv
      exact QueryReading.truth?_singleton_eq hV hpath hform type hv
    · intro low high hlow hhigh
      exact QueryReading.truth?_between_eq hV hpath hform type hlow hhigh

/-- In a document without fields a field is none of a list of one as it is unequal to that one, and
it is in no range as neither of the two comparisons holds. -/
theorem Context.survey_operands_alike :
    let g := survey.generator
    let V := emptyReading .nothing g (survey.projection [])
    let form := ComparisonForm.expr (.str ("$" ++ "objectId"))
    V.FormLaws (fun _ ↦ 0) g (survey.projection []) ∧ IsDocumentPath "objectId" ∧
      ((Json.str "007").IsOwnOperand (some .string) ∧
        g.truth? form (some .string) V .noneOf (.arr [.str "007"]) = some true ∧
        g.truth? form (some .string) V (.compare .ne) (.str "007") = some true) ∧
      ((Json.str "a").IsRangeEnd (some .string) ∧ (Json.str "m").IsRangeEnd (some .string) ∧
        g.truth? form (some .string) V .between (.arr [.str "a", .str "m"]) = some false ∧
        g.truth? form (some .string) V (.compare .gte) (.str "a") = some false ∧
        g.truth? form (some .string) V (.compare .lte) (.str "m") = some false) := by
  intro g V form
  have hlaws : V.FormLaws (fun _ ↦ 0) g (survey.projection []) :=
    QueryReading.formLaws_empty survey []
  have hpath : IsDocumentPath "objectId" := by decide
  have hown : (Json.str "007").IsOwnOperand (some .string) := trivial
  have hlow : (Json.str "a").IsRangeEnd (some .string) :=
    .inr ⟨show Json.finiteNumber? "a" = none by decide +kernel, trivial⟩
  have hhigh : (Json.str "m").IsRangeEnd (some .string) :=
    .inr ⟨show Json.finiteNumber? "m" = none by decide +kernel, trivial⟩
  have hne : g.truth? form (some .string) V (.compare .ne) (.str "007") = some true := by
    decide +kernel
  have hgte : g.truth? form (some .string) V (.compare .gte) (.str "a") = some false := by
    decide +kernel
  have hlte : g.truth? form (some .string) V (.compare .lte) (.str "m") = some false := by
    decide +kernel
  obtain ⟨hmember, hrange⟩ :=
    (g.operands_alike (some .string)).2 V _ _ hlaws "objectId" hpath form (.inr rfl)
  refine ⟨hlaws, hpath, ⟨hown, (hmember _ hown).2.trans hne, hne⟩, hlow, hhigh, ?_, hgte, hlte⟩
  rw [(hrange _ _ hlow hhigh).1, hgte, hlte]
  rfl

/-- Numeric text in a list stays a text although equality compares with a number, and as the end of
a range it becomes a number although the field holds texts. -/
theorem Context.survey_operands_differ :
    let g := survey.generator
    (g.operands? (.query "mag") (some .number) .oneOf (.arr [.str "18"]) = some [.str "18"] ∧
      g.operands? (.query "mag") (some .number) (.compare .eq) (.str "18") = some [.int 18]) ∧
    (g.operands? (.query "objectId") (some .string) .between (.arr [.str "007", .str "010"]) =
        some [.int 7, .int 10] ∧
      g.operands? (.query "objectId") (some .string) (.compare .gte) (.str "007") =
        some [.str "007"] ∧
      g.operands? (.query "objectId") (some .string) (.compare .lte) (.str "010") =
        some [.str "010"]) := by
  have hnumber {s : String} {x : Double} (h : Json.finiteNumber? s = some x) :
      (Json.str s).coerceNumber = .ofDouble x := by rw [Json.coerceNumber, h]; rfl
  have h18 : (Json.str "18").coerceNumber = .int 18 :=
    hnumber (x := .finite false 9 1) (by decide +kernel)
  have h7 : (Json.str "007").coerceNumber = .int 7 :=
    hnumber (x := .finite false 7 0) (by decide +kernel)
  have h10 : (Json.str "010").coerceNumber = .int 10 :=
    hnumber (x := .finite false 5 1) (by decide +kernel)
  refine ⟨⟨Generator.operands?_membership _ _ _ (Or.inl rfl) _, ?_⟩, ?_,
    Generator.operands?_compare .., Generator.operands?_compare ..⟩
  · rw [Generator.operands?_compare]
    exact congrArg (some [·]) h18
  · rw [Generator.operands?_range _ _ _ (Or.inl rfl), h7, h10]

end FilterPipeline
