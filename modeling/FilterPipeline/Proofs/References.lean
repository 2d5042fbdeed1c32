import FilterPipeline.Compile.ListQuery

/-!
# What expressions and queries read

The paths of the document that an aggregation expression refers to, and those that a query tests.
Literals without dollar signs read nothing, and the fragments that expressions are put together from
read what their parts do.
-/

namespace FilterPipeline

namespace Json

/-- The path from the document's root that a string refers to: what follows a single dollar sign. -/
def rootPath? (s : String) : Option String :=
  match s.toList with
  | '$' :: cs => if cs.head? = some '$' then none else some (String.ofList cs)
  | _ => none

mutual

/-- The paths from the document's root that an aggregation expression refers to. -/
def exprPaths : Json → List String
  | .str s => (rootPath? s).toList
  | .arr items => itemPaths items
  | .obj members => memberPaths members
  | _ => []

/-- The paths that several expressions refer to. -/
def itemPaths : List Json → List String
  | [] => []
  | v :: rest => exprPaths v ++ itemPaths rest

/-- The paths that the operands of operators refer to. The pattern and the options of a regular
expression are texts. -/
def memberPaths : List (String × Json) → List String
  | [] => []
  | (key, v) :: rest => (if key = "$regexMatch" then inputPaths v else exprPaths v) ++
      memberPaths rest

/-- The paths that the input of a match with a regular expression refers to. -/
def inputPaths : Json → List String
  | .obj members => inputMemberPaths members
  | _ => []

/-- The paths that the members called `input` refer to. -/
def inputMemberPaths : List (String × Json) → List String
  | [] => []
  | (key, v) :: rest => (if key = "input" then exprPaths v else []) ++ inputMemberPaths rest

end

mutual

/-- The paths of the document that a query reads: those it tests, and those that aggregation
expressions in it refer to. -/
def queryPaths : Json → List String
  | .obj members => testPaths members
  | _ => []

/-- The paths that the members of a query read. -/
def testPaths : List (String × Json) → List String
  | [] => []
  | (key, v) :: rest =>
    (if key = "$expr" then exprPaths v
    else if key = "$and" ∨ key = "$or" ∨ key = "$nor" then branchPaths v
    else [key]) ++ testPaths rest

/-- The paths that the operand of a combination of queries reads. -/
def branchPaths : Json → List String
  | .arr queries => branchesPaths queries
  | _ => []

/-- The paths that several queries read. -/
def branchesPaths : List Json → List String
  | [] => []
  | q :: rest => queryPaths q ++ branchesPaths rest

end

mutual

/-- The strings in a value, keys aside. -/
def strings : Json → List String
  | .str s => [s]
  | .arr items => itemStrings items
  | .obj members => memberStrings members
  | _ => []

/-- The strings in several values. -/
def itemStrings : List Json → List String
  | [] => []
  | v :: rest => strings v ++ itemStrings rest

/-- The strings in the values of members. -/
def memberStrings : List (String × Json) → List String
  | [] => []
  | (_, v) :: rest => strings v ++ memberStrings rest

end

/-- No string in a value begins with a dollar sign. -/
def IsPlain (v : Json) : Prop := ∀ s ∈ v.strings, beginsWith "$" s = false

/-- Whether a value is plain is decided by the strings in it. -/
instance (v : Json) : Decidable v.IsPlain :=
  inferInstanceAs (Decidable (∀ s ∈ v.strings, beginsWith "$" s = false))

/-- An expression reads nothing from the document's root but paths with some property. -/
def ExprReads (P : String → Prop) (e : Json) : Prop := ∀ path ∈ e.exprPaths, P path

/-- A query reads nothing but paths with some property. -/
def QueryReads (P : String → Prop) (q : Json) : Prop := ∀ path ∈ q.queryPaths, P path

variable {P : String → Prop}

/-- A text begins with a dollar sign if that is its first character. -/
theorem beginsWith_dollar_iff {s : String} :
    beginsWith "$" s = true ↔ ∃ cs, s.toList = '$' :: cs := by
  rw [beginsWith, Option.isSome_iff_exists]
  constructor
  · rintro ⟨rest, h⟩
    exact ⟨rest, Text.afterStart?_eq_some_iff.mp h⟩
  · rintro ⟨cs, h⟩
    exact ⟨cs, Text.afterStart?_eq_some_iff.mpr h⟩

/-- A text whose first character is another one begins with no dollar sign. -/
theorem beginsWith_dollar_of_head {s : String} {c : Char} {cs : List Char} (hs : s.toList = c :: cs)
    (hc : c ≠ '$') : beginsWith "$" s = false := by
  rw [Bool.eq_false_iff, ne_eq, beginsWith_dollar_iff]
  rintro ⟨rest, hrest⟩
  rw [hs, List.cons.injEq] at hrest
  exact hc hrest.1

private theorem beginsWith_dollar_escaped (s rest : String) (h : s ≠ "" ∨ rest = "") :
    beginsWith "$" (regexEscape s ++ rest) = false := by
  cases hs : s.toList with
  | nil =>
    have hempty : s = "" := String.toList_eq_nil_iff.mp hs
    rw [hempty] at h ⊢
    rcases h with h | rfl
    · exact absurd rfl h
    · rfl
  | cons c cs =>
    have htext : (regexEscape s ++ rest).toList =
        (if regexSpecials.contains c then ['\\', c] else [c]) ++
          ((cs.flatMap fun c ↦ if regexSpecials.contains c then ['\\', c] else [c]) ++
            rest.toList) := by
      simp [regexEscape, hs]
    by_cases hc : regexSpecials.contains c = true
    · rw [if_pos hc] at htext
      exact beginsWith_dollar_of_head htext (by decide)
    · rw [if_neg hc] at htext
      refine beginsWith_dollar_of_head htext ?_
      rintro rfl
      exact hc (by decide)

/-- The pattern for a literal whose text is not empty begins with no dollar sign. -/
theorem beginsWith_dollar_literalPattern (v : Json) {atStart atEnd : Bool}
    (h : v.regexText ≠ "") : beginsWith "$" (v.literalPattern atStart atEnd) = false := by
  have hescaped := beginsWith_dollar_escaped v.regexText "" (Or.inr rfl)
  rw [String.append_empty] at hescaped
  cases atStart <;> cases atEnd <;> simp only [literalPattern]
  · exact hescaped
  · exact beginsWith_dollar_escaped _ _ (Or.inl h)
  · exact beginsWith_dollar_of_head (by rw [String.toList_append]; rfl) (by decide)
  · exact hescaped

/-- A text that begins with no dollar sign refers to nothing. -/
theorem rootPath?_eq_none {s : String} (h : beginsWith "$" s = false) : rootPath? s = none := by
  unfold rootPath?
  split
  · next cs hs =>
    rw [beginsWith_dollar_iff.mpr ⟨cs, hs⟩] at h
    cases h
  · rfl

/-- A single dollar sign before a path refers to it. -/
theorem rootPath?_dollar {path : String} (h : beginsWith "$" path = false) :
    rootPath? ("$" ++ path) = some path := by
  have hs : ("$" ++ path).toList = '$' :: path.toList := by simp
  simp only [rootPath?, hs]
  rw [if_neg, String.ofList_toList]
  intro hd
  obtain ⟨cs, hcs⟩ := List.head?_eq_some_iff.mp hd
  rw [beginsWith_dollar_iff.mpr ⟨cs, hcs⟩] at h
  cases h

/-- Two dollar signs refer to nothing from the root. -/
theorem rootPath?_dollars (path : String) : rootPath? ("$$" ++ path) = none := by
  have hs : ("$$" ++ path).toList = '$' :: '$' :: path.toList := by simp
  simp [rootPath?, hs]

mutual

private theorem exprPaths_of_isPlain : (v : Json) → v.IsPlain → v.exprPaths = []
  | .null, _ | .bool _, _ | .int _, _ | .double _, _ => rfl
  | .str s, h => by
    rw [exprPaths, rootPath?_eq_none (h s List.mem_cons_self), Option.toList_none]
  | .arr items, h => itemPaths_of_plain items h
  | .obj members, h => memberPaths_of_plain members h

private theorem itemPaths_of_plain : (items : List Json) →
    (∀ s ∈ itemStrings items, beginsWith "$" s = false) → itemPaths items = []
  | [], _ => rfl
  | v :: rest, h => by
    rw [itemPaths, exprPaths_of_isPlain v fun s hs ↦ h s (List.mem_append_left _ hs),
      itemPaths_of_plain rest fun s hs ↦ h s (List.mem_append_right _ hs), List.append_nil]

private theorem memberPaths_of_plain : (members : List (String × Json)) →
    (∀ s ∈ memberStrings members, beginsWith "$" s = false) → memberPaths members = []
  | [], _ => rfl
  | (key, v) :: rest, h => by
    have hv : v.IsPlain := fun s hs ↦ h s (List.mem_append_left _ hs)
    rw [memberPaths, memberPaths_of_plain rest fun s hs ↦ h s (List.mem_append_right _ hs),
      exprPaths_of_isPlain v hv, inputPaths_of_isPlain v hv, ite_self, List.append_nil]

private theorem inputPaths_of_isPlain : (v : Json) → v.IsPlain → v.inputPaths = []
  | .null, _ | .bool _, _ | .int _, _ | .double _, _ | .str _, _ | .arr _, _ => rfl
  | .obj members, h => inputMemberPaths_of_plain members h

private theorem inputMemberPaths_of_plain : (members : List (String × Json)) →
    (∀ s ∈ memberStrings members, beginsWith "$" s = false) → inputMemberPaths members = []
  | [], _ => rfl
  | (key, v) :: rest, h => by
    have hv : v.IsPlain := fun s hs ↦ h s (List.mem_append_left _ hs)
    rw [inputMemberPaths, exprPaths_of_isPlain v hv, ite_self,
      inputMemberPaths_of_plain rest fun s hs ↦ h s (List.mem_append_right _ hs), List.append_nil]

end

/-- A value without dollar signs reads nothing. -/
theorem IsPlain.exprReads {v : Json} (h : v.IsPlain) : v.ExprReads P := by
  rw [ExprReads, exprPaths_of_isPlain v h]
  simp

variable {e v : Json} {key : String} {items : List Json} {members : List (String × Json)}

/-- An operator with one operand reads what that does. -/
@[simp] theorem exprReads_single_iff (h : key ≠ "$regexMatch") :
    (single key e).ExprReads P ↔ e.ExprReads P := by
  simp [ExprReads, single, exprPaths, memberPaths, h]

/-- A match with a regular expression reads what its input does. -/
@[simp] theorem exprReads_regexMatch_iff {options pattern : Json} :
    (single "$regexMatch" (.obj [("input", e), ("options", options), ("regex", pattern)])).ExprReads
      P ↔ e.ExprReads P := by
  simp [ExprReads, single, exprPaths, memberPaths, inputPaths, inputMemberPaths]

/-- No items read nothing. -/
@[simp] theorem exprReads_nil : (Json.arr []).ExprReads P := by
  simp [ExprReads, exprPaths, itemPaths]

/-- Items read what each of them does. -/
@[simp] theorem exprReads_cons_iff :
    (Json.arr (e :: items)).ExprReads P ↔ e.ExprReads P ∧ (Json.arr items).ExprReads P := by
  simp [ExprReads, exprPaths, itemPaths, or_imp, forall_and]

/-- Items that read nothing but paths with some property do so together. -/
theorem exprReads_arr (h : ∀ e ∈ items, e.ExprReads P) : (Json.arr items).ExprReads P := by
  induction items with
  | nil => exact exprReads_nil
  | cons e items ih =>
    rw [exprReads_cons_iff]
    exact ⟨h e List.mem_cons_self, ih fun e' he ↦ h e' (List.mem_cons_of_mem _ he)⟩

/-- No members read nothing. -/
@[simp] theorem exprReads_obj_nil : (Json.obj []).ExprReads P := by
  simp [ExprReads, exprPaths, memberPaths]

/-- Members read what each of them does. -/
@[simp] theorem exprReads_obj_cons_iff (h : key ≠ "$regexMatch") :
    (Json.obj ((key, e) :: members)).ExprReads P ↔
      e.ExprReads P ∧ (Json.obj members).ExprReads P := by
  simp [ExprReads, exprPaths, memberPaths, h, or_imp, forall_and]

/-- A truth value reads nothing. -/
@[simp] theorem exprReads_bool {b : Bool} : (Json.bool b).ExprReads P := by
  simp [ExprReads, exprPaths]

/-- A whole number reads nothing. -/
@[simp] theorem exprReads_int {n : Int} : (Json.int n).ExprReads P := by
  simp [ExprReads, exprPaths]

/-- A text reads the path that it refers to. -/
@[simp] theorem exprReads_str_iff {s : String} :
    (Json.str s).ExprReads P ↔ ∀ path, rootPath? s = some path → P path := by
  simp [ExprReads, exprPaths]

/-- A computed number is plain. -/
theorem isPlain_ofDouble (x : Double) : (ofDouble x).IsPlain := by
  unfold ofDouble IsPlain
  repeat' split
  all_goals simp [strings]

/-- A numeric text that becomes a number stays plain. -/
theorem IsPlain.coerceNumber (h : v.IsPlain) : v.coerceNumber.IsPlain := by
  cases v with
  | str s =>
    simp only [Json.coerceNumber]
    cases finiteNumber? s with
    | none => exact h
    | some x => exact isPlain_ofDouble x
  | null | bool _ | int _ | double _ | arr _ | obj _ => exact h

/-- An operand stays plain for a field of any type. -/
theorem IsPlain.coerceFor (h : v.IsPlain) (type : Option FieldType) :
    (v.coerceFor type).IsPlain := by
  unfold Json.coerceFor
  split
  · exact h
  · split
    · simp [IsPlain, strings]
    · simp [IsPlain, strings]
    · exact h
  · exact h.coerceNumber

/-- A list of one plain value is plain. -/
theorem IsPlain.wrapList (h : v.IsPlain) : v.wrapList.IsPlain := by
  cases v with
  | arr items => exact h
  | null | bool _ | int _ | double _ => simp [Json.wrapList, IsPlain, strings, itemStrings]
  | str _ | obj _ => simpa [Json.wrapList, IsPlain, strings, itemStrings] using h

/-- The ends of a plain range are plain. -/
theorem IsPlain.rangeBounds {low high : Json} (h : v.IsPlain)
    (hr : v.rangeBounds? = some (low, high)) : low.IsPlain ∧ high.IsPlain := by
  unfold rangeBounds? at hr
  split at hr
  · next a b =>
    cases hr
    simp only [IsPlain, strings, itemStrings, List.append_nil, List.mem_append] at h
    exact ⟨IsPlain.coerceNumber fun s hs ↦ h s (Or.inl hs),
      IsPlain.coerceNumber fun s hs ↦ h s (Or.inr hs)⟩
  · cases hr

end Json

namespace Fragment

open Json

variable {P : String → Prop} {e : Json}

/-- A negation reads what is negated. -/
@[simp] theorem exprReads_negateExpr_iff : (negateExpr e).ExprReads P ↔ e.ExprReads P := by
  simp [negateExpr]

/-- An array to walk over reads what yields it. -/
@[simp] theorem exprReads_arrayInput_iff : (arrayInput e).ExprReads P ↔ e.ExprReads P := by
  simp [arrayInput]

/-- The size of an array reads what yields the array. -/
@[simp] theorem exprReads_sizeOfArray_iff : (sizeOfArray e).ExprReads P ↔ e.ExprReads P := by
  simp [sizeOfArray]

/-- The test that an array has an element reads what yields the array. -/
@[simp] theorem exprReads_isNotEmpty_iff : (isNotEmpty e).ExprReads P ↔ e.ExprReads P := by
  simp [isNotEmpty]

end Fragment

/-- A text that begins with no dollar sign does not begin with one if another such text is put
behind it. -/
theorem beginsWith_dollar_append {path suffix : String} (hp : beginsWith "$" path = false)
    (hs : beginsWith "$" suffix = false) : beginsWith "$" (path ++ suffix) = false := by
  rw [Bool.eq_false_iff, ne_eq, Json.beginsWith_dollar_iff] at hp hs ⊢
  rintro ⟨cs, h⟩
  rw [String.toList_append] at h
  cases hpath : path.toList with
  | nil =>
    rw [hpath, List.nil_append] at h
    exact hs ⟨cs, h⟩
  | cons c rest =>
    rw [hpath, List.cons_append, List.cons.injEq] at h
    exact hp ⟨rest, by rw [hpath, h.1]⟩

/-- A path below one that begins with no dollar sign begins with none. -/
theorem beginsWith_dollar_below {path : String} (hp : beginsWith "$" path = false) (sub : String) :
    beginsWith "$" (path ++ "." ++ sub) = false := by
  rw [String.append_assoc]
  apply beginsWith_dollar_append hp
  rw [Bool.eq_false_iff, ne_eq, Json.beginsWith_dollar_iff]
  simp

/-- The reference to a path in a scope, with something behind it, reads just that, and only if the
scope is the document. -/
theorem Scope.exprReads_reference {P : String → Prop} {scope : Scope} {path suffix : String}
    (hpath : beginsWith "$" path = false) (hsuffix : beginsWith "$" suffix = false)
    (hP : scope = .document → P (path ++ suffix)) :
    (Json.str (scope.reference path ++ suffix)).ExprReads P := by
  rw [Json.exprReads_str_iff]
  intro p hp
  simp only [reference, FieldScope.reference, hpath, Bool.false_eq_true, if_false] at hp
  split at hp
  · rw [String.append_assoc, Json.rootPath?_dollars] at hp
    cases hp
  · cases scope with
    | element array =>
      have hs : "$$this." ++ path ++ suffix = "$$" ++ ("this." ++ path ++ suffix) := by
        simp only [← String.append_assoc]
        rfl
      simp only [fields, hs, Json.rootPath?_dollars] at hp
      cases hp
    | document =>
      simp only [fields, String.append_assoc,
        Json.rootPath?_dollar (beginsWith_dollar_append hpath hsuffix)] at hp
      cases hp
      exact hP rfl

/-- The literals of a list condition and its array are plain. -/
structure ListCondition.IsPlain (d : ListCondition) : Prop where
  array : ∀ path ∈ d.arrayPath?, beginsWith "$" path = false
  scalar : ∀ v ∈ d.operand.literal?, v.IsPlain
  comparisonValue : ∀ v ∈ d.comparisonValue, v.IsPlain

/-- Whether a list condition is plain is decided by its array and its literals. -/
instance (d : ListCondition) : Decidable d.IsPlain :=
  decidable_of_iff ((∀ path ∈ d.arrayPath?, beginsWith "$" path = false) ∧
      (∀ v ∈ d.operand.literal?, v.IsPlain) ∧ ∀ v ∈ d.comparisonValue, v.IsPlain)
    ⟨fun ⟨h, h', h''⟩ ↦ ⟨h, h', h''⟩, fun ⟨h, h', h''⟩ ↦ ⟨h, h', h''⟩⟩

namespace ListQuery

/-- All that a question about an array is put together from reads nothing but paths with some
property. -/
structure Reads (P : String → Prop) (q : ListQuery) : Prop where
  reference : (Json.str q.reference).ExprReads P
  subField : ∀ sub, (Json.str (q.reference ++ "." ++ sub)).ExprReads P
  element : ∀ e, q.element = some e → e.ExprReads P
  scalar : ∀ v, q.scalar = some v → v.IsPlain
  comparisonValue : ∀ v, q.comparisonValue = some v → v.IsPlain

open Fragment

variable {P : String → Prop} {q : ListQuery}

private theorem exprReads_references {scope : Scope} {path : String}
    (hpath : beginsWith "$" path = false) (hP : scope = .document → P path)
    (hsub : ∀ sub, P path → P (path ++ "." ++ sub)) :
    (Json.str (scope.reference path)).ExprReads P ∧
      ∀ sub, (Json.str (scope.reference path ++ "." ++ sub)).ExprReads P := by
  constructor
  · have h : (Json.str (scope.reference path ++ "")).ExprReads P :=
      Scope.exprReads_reference hpath rfl fun hs ↦ by simpa using hP hs
    simpa using h
  · intro sub
    rw [String.append_assoc]
    refine Scope.exprReads_reference (P := P) hpath ?_ fun hs ↦ ?_
    · rw [Bool.eq_false_iff, ne_eq, Json.beginsWith_dollar_iff]
      simp
    · rw [← String.append_assoc]
      exact hsub sub (hP hs)

/-- The question of a list condition reads the array, if that is in the document. -/
theorem reads_ofListCondition? {d : ListCondition} {outer : Option Operator} {scope : Scope}
    {element : Option Json} (hd : d.IsPlain)
    (hP : ∀ path, d.arrayPath? = some path → scope = .document → P path)
    (hsub : ∀ path sub, P path → P (path ++ "." ++ sub))
    (helement : ∀ e, element = some e → e.ExprReads P)
    (hq : ofListCondition? d outer scope element = some q) : q.Reads P := by
  simp only [ofListCondition?, Option.bind_eq_bind, Option.bind_eq_some_iff] at hq
  obtain ⟨op, -, path, hpath, hq⟩ := hq
  cases hq
  obtain ⟨href, hrefs⟩ :=
    exprReads_references (hd.array path hpath) (hP path hpath) (hsub path)
  exact ⟨href, hrefs, helement, hd.scalar, hd.comparisonValue⟩

/-- The question of a list operator on a condition reads the field, if that is in the document. -/
theorem reads_ofCondition {field : String} {op : ListOperator} {operand : Operand} {scope : Scope}
    {element : Option Json} (hfield : beginsWith "$" field = false)
    (hliteral : ∀ v, operand.literal? = some v → v.IsPlain)
    (hP : scope = .document → P field) (hsub : ∀ path sub, P path → P (path ++ "." ++ sub))
    (helement : ∀ e, element = some e → e.ExprReads P) :
    (ofCondition field op operand scope element).Reads P := by
  obtain ⟨href, hrefs⟩ := exprReads_references hfield hP (hsub field)
  exact ⟨href, hrefs, helement, hliteral, fun v h ↦ by cases h⟩

private theorem key_ne (op : ListOperator) : op.key ≠ "$regexMatch" := by
  rcases op with (_ | _) | _ | (_ | _ | _ | _) <;> decide

private theorem elementPredicate_reads (h : q.Reads P) {p : Json}
    (hp : q.elementPredicate? = some p) : p.ExprReads P := by
  rcases Option.or_eq_some_iff.mp hp with he | ⟨-, hs⟩
  · exact h.element p he
  · obtain ⟨v, hv, rfl⟩ := Option.map_eq_some_iff.mp hs
    have hplain := h.scalar v (Option.filter_eq_some_iff.mp hv).1
    have hthis : Json.rootPath? "$$this" = none := by decide
    simp [hthis, hplain.exprReads]

private theorem input_reads (h : q.Reads P) : q.input.ExprReads P := by
  simpa only [input, exprReads_arrayInput_iff] using h.reference

/-- A quantifier reads what its question does. -/
theorem Reads.quantifierExpr (h : q.Reads P) : q.quantifierExpr.ExprReads P := by
  rw [ListQuery.quantifierExpr, Json.exprReads_single_iff (key_ne q.op)]
  split
  · next p hp => simp [elementPredicate_reads h hp, input_reads h]
  · exact input_reads h

/-- A filter reads what its question does. -/
theorem Reads.filterExpr (h : q.Reads P) {e : Json} (he : q.filterExpr? = some e) :
    e.ExprReads P := by
  obtain ⟨p, hp, rfl⟩ := Option.map_eq_some_iff.mp he
  simp [elementPredicate_reads h hp, input_reads h]

/-- The elements that pass a filter, or all of them, read what its question does. -/
theorem Reads.filteredExpr (h : q.Reads P) : q.filteredExpr.ExprReads P := by
  rw [ListQuery.filteredExpr]
  cases he : q.filterExpr? with
  | none => exact input_reads h
  | some e => exact h.filterExpr he

/-- An aggregate reads what its question does. -/
theorem Reads.aggregateExpr (h : q.Reads P) : q.aggregateExpr.ExprReads P := by
  rw [ListQuery.aggregateExpr, Json.exprReads_single_iff (key_ne q.op)]
  split
  · exact h.subField _
  · exact h.reference

private theorem Reads.aggregateComparison (h : q.Reads P) : q.aggregateComparison.ExprReads P := by
  have hkey : q.comparison.key ≠ "$regexMatch" := by cases q.comparison <;> decide
  rw [ListQuery.aggregateComparison]
  split
  · next target ht =>
    have hplain : target.IsPlain := by
      rcases Option.or_eq_some_iff.mp ht with hc | ⟨-, hs⟩
      · exact h.comparisonValue target (Option.filter_eq_some_iff.mp hc).1
      · exact h.scalar target (Option.filter_eq_some_iff.mp hs).1
    simp [hkey, h.aggregateExpr, hplain.coerceNumber.exprReads]
  · simp [h.aggregateExpr]

/-- A question as an expression reads what it is put together from. -/
theorem Reads.predicate_toExpr (h : q.Reads P) : q.predicate.toExpr.ExprReads P := by
  rw [ListQuery.predicate]
  split
  · exact h.quantifierExpr
  · split
    · next filtered hf => simpa [ListPredicate.toExpr] using h.filterExpr hf
    · simpa [ListPredicate.toExpr] using h.reference
  · exact h.aggregateComparison

end ListQuery
end FilterPipeline
