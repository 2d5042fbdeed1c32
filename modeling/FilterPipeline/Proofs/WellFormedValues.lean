import FilterPipeline.Compile.Check
import FilterPipeline.Compile.ListQuery

/-!
# Values that the checker accepts

Where a value stands has no influence on whether the checker finds an issue in it, only on the place
that is reported. A value without issues is put together from such values, and nothing else has to
be looked at than the operands of a few operators.
-/

namespace FilterPipeline

open Fragment

namespace Issue

/-- The keys whose operands the checker looks at. -/
def checkedKeys : List String := ["$in", "$nin", "$size", "$gt", "$gte", "$lt", "$lte"]

/-- The operand of a key that is not looked at has no issue. -/
theorem ofOperator?_of_unchecked {key : String} (h : key ∉ checkedKeys) (v : Json) (path : String) :
    ofOperator? key v path = none := by
  simp only [checkedKeys, List.mem_cons, List.not_mem_nil, or_false, not_or] at h
  simp [ofOperator?, h]

/-- Whether an operand has an issue does not depend on its place. -/
theorem ofOperator?_eq_none_congr {key : String} {v : Json} (path path' : String) :
    ofOperator? key v path = none ↔ ofOperator? key v path' = none := by
  unfold ofOperator?
  split
  · split <;> simp
  · split
    · split <;> simp
    · split
      · split
        · split <;> simp
        · rfl
      · rfl

mutual

/-- Whether a value has an issue does not depend on its place. -/
theorem ofValue?_eq_none_congr (path path' : String) : (v : Json) →
    (ofValue? path v = none ↔ ofValue? path' v = none)
  | .null | .bool _ | .int _ | .double _ | .str _ => Iff.rfl
  | .arr items => ofItems?_eq_none_congr path path' 0 0 items
  | .obj members => by
    simp only [ofValue?]
    split
    · simp
    · exact ofMembers?_eq_none_congr path path' members

/-- Whether members have an issue does not depend on their place. -/
theorem ofMembers?_eq_none_congr (path path' : String) : (members : List (String × Json)) →
    (ofMembers? path members = none ↔ ofMembers? path' members = none)
  | [] => Iff.rfl
  | (key, v) :: rest => by
    simp only [ofMembers?]
    split
    · simp
    · simp only [Option.or_eq_none_iff]
      rw [ofOperator?_eq_none_congr (path ++ "." ++ key) (path' ++ "." ++ key),
        ofValue?_eq_none_congr (path ++ "." ++ key) (path' ++ "." ++ key) v,
        ofMembers?_eq_none_congr path path' rest]

/-- Whether items have an issue does not depend on their place. -/
theorem ofItems?_eq_none_congr (path path' : String) (i j : Nat) : (items : List Json) →
    (ofItems? path i items = none ↔ ofItems? path' j items = none)
  | [] => Iff.rfl
  | v :: rest => by
    simp only [ofItems?, Option.or_eq_none_iff]
    rw [ofValue?_eq_none_congr _ (path' ++ "[" ++ toString j ++ "]") v,
      ofItems?_eq_none_congr path path' (i + 1) (j + 1) rest]

end

end Issue

namespace Json

/-- The checker finds no issue in a value. -/
def IsWellFormed (v : Json) : Prop := Issue.ofValue? "" v = none

/-- The checker finds no issue with a member of an object. -/
structure IsWellFormedMember (key : String) (v : Json) : Prop where
  key_ne : key ≠ ""
  operand : Issue.ofOperator? key v "" = none
  value : v.IsWellFormed

variable {v w : Json} {key : String}

/-- There is no issue in a well-formed value, wherever it stands. -/
theorem IsWellFormed.ofValue?_eq_none (h : v.IsWellFormed) (path : String) :
    Issue.ofValue? path v = none :=
  (Issue.ofValue?_eq_none_congr path "" v).mpr h

/-- Truth values are well-formed. -/
@[simp] theorem isWellFormed_bool (b : Bool) : (Json.bool b).IsWellFormed := rfl

/-- Whole numbers are well-formed. -/
@[simp] theorem isWellFormed_int (n : Int) : (Json.int n).IsWellFormed := rfl

/-- Strings are well-formed. -/
@[simp] theorem isWellFormed_str (s : String) : (Json.str s).IsWellFormed := rfl

/-- A list is well formed when its items are. -/
theorem isWellFormed_arr_iff {items : List Json} :
    (Json.arr items).IsWellFormed ↔ ∀ item ∈ items, item.IsWellFormed := by
  have h : ∀ i, Issue.ofItems? "" i items = none ↔ ∀ item ∈ items, item.IsWellFormed := by
    induction items with
    | nil => simp [Issue.ofItems?]
    | cons v rest ih =>
      intro i
      rw [List.forall_mem_cons, Issue.ofItems?, Option.or_eq_none_iff, ih,
        Issue.ofValue?_eq_none_congr _ "" v]
      rfl
  exact h 0

private theorem ofMembers?_eq_none_iff {members : Members} :
    Issue.ofMembers? "" members = none ↔ ∀ m ∈ members, IsWellFormedMember m.1 m.2 := by
  induction members with
  | nil => simp [Issue.ofMembers?]
  | cons m rest ih =>
    obtain ⟨key, v⟩ := m
    rw [List.forall_mem_cons, ← ih]
    simp only [Issue.ofMembers?]
    split
    · next h => simpa using fun hm ↦ absurd (String.isEmpty_iff.mp h) hm.key_ne
    · next h =>
      simp only [Option.or_eq_none_iff]
      rw [Issue.ofOperator?_eq_none_congr _ "", Issue.ofValue?_eq_none_congr _ ""]
      refine and_congr_left' ⟨fun ⟨ho, hv⟩ ↦ ⟨fun he ↦ h (String.isEmpty_iff.mpr he), ho, hv⟩,
        fun hm ↦ ⟨hm.operand, hm.value⟩⟩

/-- An object is well formed when it has members and they are. -/
theorem isWellFormed_obj_iff {members : Members} : (Json.obj members).IsWellFormed ↔
    members ≠ [] ∧ ∀ m ∈ members, IsWellFormedMember m.1 m.2 := by
  rw [IsWellFormed, Issue.ofValue?, ← ofMembers?_eq_none_iff]
  cases members <;> simp

/-- An object with one member is well formed when that is. -/
theorem isWellFormed_single_iff : (single key v).IsWellFormed ↔ IsWellFormedMember key v := by
  simp [single, isWellFormed_obj_iff]

/-- The checker does not look at what a key stands before. -/
def IsFreeKey (key : String) : Prop := key ≠ "" ∧ key ∉ Issue.checkedKeys

/-- Being free is decided by comparing the key with those that are checked. -/
instance (key : String) : Decidable (IsFreeKey key) :=
  inferInstanceAs (Decidable (key ≠ "" ∧ key ∉ Issue.checkedKeys))

/-- A member with a free key is well formed when its value is. -/
theorem IsFreeKey.isWellFormedMember (h : IsFreeKey key) (hv : v.IsWellFormed) :
    IsWellFormedMember key v :=
  ⟨h.1, Issue.ofOperator?_of_unchecked h.2 v "", hv⟩

/-- A text behind a free key is well formed. -/
theorem isWellFormedMember_str (key s : String) (h : IsFreeKey key) :
    IsWellFormedMember key (.str s) :=
  h.isWellFormedMember (isWellFormed_str s)

/-- An operator with a free key is well formed when its operand is. -/
theorem IsFreeKey.single (h : IsFreeKey key) (hv : v.IsWellFormed) :
    (single key v).IsWellFormed :=
  isWellFormed_single_iff.mpr (h.isWellFormedMember hv)

/-- An object is well formed when it has one member and each of its members is. -/
theorem isWellFormed_obj_cons {members : Members} (h : IsWellFormedMember key v)
    (hmembers : ∀ m ∈ members, IsWellFormedMember m.1 m.2) :
    (Json.obj ((key, v) :: members)).IsWellFormed :=
  isWellFormed_obj_iff.mpr ⟨List.cons_ne_nil _ _, List.forall_mem_cons.mpr ⟨h, hmembers⟩⟩

/-- A pair is well formed when both are. -/
theorem isWellFormed_pair (hv : v.IsWellFormed) (hw : w.IsWellFormed) :
    (Json.arr [v, w]).IsWellFormed := by
  simp [isWellFormed_arr_iff, hv, hw]

/-- Whether a value is a number or a text. -/
def isScalar (v : Json) : Bool := v.isNumber || v.isString

/-- Numbers and texts are well formed. -/
theorem isWellFormed_of_isScalar (h : v.isScalar = true) : v.IsWellFormed := by
  cases v with
  | null | bool _ | arr _ | obj _ => cases h
  | int _ | double _ | str _ => rfl

/-- A comparison of two values is well formed when one of them is a number or a text. -/
theorem isWellFormed_comparison (c : Comparison) (hv : v.IsWellFormed) (hw : w.IsWellFormed)
    (h : v.isScalar = true ∨ w.isScalar = true) :
    (single c.key (.arr [v, w])).IsWellFormed := by
  refine isWellFormed_single_iff.mpr ⟨by cases c <;> decide, ?_, isWellFormed_pair hv hw⟩
  have hany : [v, w].any (fun v ↦ v.isNumber || v.isString) = true := by
    simpa [isScalar] using h
  unfold Issue.ofOperator?
  split
  · rfl
  · split
    · next hsize => cases c <;> cases hsize
    · simp [hany]

/-- A test of a path for membership is well formed when it has a list of well-formed values. -/
theorem isWellFormed_membership (hkey : key = "$in" ∨ key = "$nin") {items : List Json}
    (h : ∀ item ∈ items, item.IsWellFormed) : (single key (.arr items)).IsWellFormed :=
  isWellFormed_single_iff.mpr ⟨by rcases hkey with rfl | rfl <;> decide,
    by rcases hkey with rfl | rfl <;> rfl, isWellFormed_arr_iff.mpr h⟩

/-- A number that is computed and finite is a number. -/
theorem isScalar_ofDouble {x : Double} (h : x.isFinite = true) : (ofDouble x).isScalar = true := by
  unfold ofDouble
  split
  · split <;> rfl
  · rw [if_pos h]
    rfl

/-- A number that is computed is well formed. -/
theorem isWellFormed_ofDouble (x : Double) : (ofDouble x).IsWellFormed := by
  unfold ofDouble
  repeat' split
  all_goals rfl

/-- The number that a text spells is finite. -/
theorem isFinite_of_finiteNumber? {s : String} {x : Double} (h : finiteNumber? s = some x) :
    x.isFinite = true := by
  simp only [finiteNumber?, Numeral.finiteValue?, Option.bind_eq_bind, Option.bind_eq_some_iff] at h
  obtain ⟨n, -, h⟩ := h
  split at h
  · next hfinite =>
    cases h
    exact (Bool.and_eq_true_iff.mp hfinite).2
  · cases h

/-- A number or a text stays one when a numeric text becomes a number. -/
theorem isScalar_coerceNumber (h : v.isScalar = true) : v.coerceNumber.isScalar = true := by
  cases v with
  | str s =>
    simp only [coerceNumber]
    cases hx : finiteNumber? s with
    | none => rfl
    | some x => exact isScalar_ofDouble (isFinite_of_finiteNumber? hx)
  | null | bool _ | int _ | double _ | arr _ | obj _ => exact h

/-- A number or a text is one as the operand for a field of any type, except that for a truth value
it can become a truth value. -/
theorem isScalar_coerceFor (h : v.isScalar = true) (type : Option FieldType) :
    (v.coerceFor type).isScalar = true ∨
      type = some .boolean ∧ ∃ b, v.coerceFor type = .bool b := by
  unfold coerceFor
  split
  · exact .inl h
  · split
    · exact .inr ⟨rfl, true, rfl⟩
    · exact .inr ⟨rfl, false, rfl⟩
    · exact .inl rfl
  · exact .inl (isScalar_coerceNumber h)

/-- A comparison of a path with a number, a text or a truth value is well formed. -/
theorem isWellFormed_test (c : Comparison) (h : v.isScalar = true ∨ ∃ b, v = .bool b) :
    (single c.key v).IsWellFormed := by
  have hkey : c.key ≠ "" := by cases c <;> decide
  cases v with
  | int _ | double _ | str _ | bool _ =>
    exact isWellFormed_single_iff.mpr ⟨hkey, by cases c <;> rfl, rfl⟩
  | null | arr _ | obj _ => rcases h with h | ⟨b, h⟩ <;> cases h

/-- Whether a value is a text or a finite number. -/
def isLiteral (v : Json) : Bool := v.isString || v.toDouble?.any Double.isFinite

/-- Literals are numbers and texts. -/
theorem isScalar_of_isLiteral (h : v.isLiteral = true) : v.isScalar = true := by
  cases v with
  | null | bool _ | arr _ | obj _ => cases h
  | int _ | double _ | str _ => rfl

/-- The number that a literal is or spells is finite. -/
theorem isFinite_of_number? {x : Double} (h : v.isLiteral = true) (hx : v.number? = some x) :
    x.isFinite = true := by
  cases v with
  | str s => exact isFinite_of_finiteNumber? hx
  | int _ | double _ =>
    cases hx
    exact h
  | null | bool _ | arr _ | obj _ => cases hx

end Json

/-- Whether an operator takes a value as its literal: a number or a text, a list of them where it
asks for membership or a range, and null where it looks at no literal. -/
def Operator.takes (v : Json) : Operator → Bool
  | oneOf | noneOf | between | notBetween => v.isLiteral || v.items?.any (·.all Json.isLiteral)
  | present | isNumber | list _ => v.isLiteral || v.isNull
  | _ => v.isLiteral

namespace Json

/-- The list that is asked for membership in is one of well-formed values. -/
theorem exists_wrapList_eq {v : Json}
    (h : (v.isLiteral || v.items?.any (·.all isLiteral)) = true) :
    ∃ items, v.wrapList = .arr items ∧ ∀ item ∈ items, item.IsWellFormed := by
  cases v with
  | arr items =>
    refine ⟨items, rfl, fun item hitem ↦ ?_⟩
    have hall : items.all isLiteral = true := h
    exact isWellFormed_of_isScalar (isScalar_of_isLiteral (List.all_eq_true.mp hall item hitem))
  | null | bool _ | obj _ => cases h
  | int _ | double _ | str _ => exact ⟨_, rfl, List.forall_mem_singleton.mpr rfl⟩

/-- The ends of a range of numbers and texts are such. -/
theorem isScalar_of_rangeBounds? {v low high : Json}
    (h : (v.isLiteral || v.items?.any (·.all isLiteral)) = true)
    (hr : v.rangeBounds? = some (low, high)) : low.isScalar = true ∧ high.isScalar = true := by
  unfold rangeBounds? at hr
  split at hr
  · next a b =>
    cases hr
    have hall : ∀ item ∈ [a, b], item.isLiteral = true := List.all_eq_true.mp h
    rw [List.forall_mem_cons, List.forall_mem_singleton] at hall
    exact ⟨isScalar_coerceNumber (isScalar_of_isLiteral hall.1),
      isScalar_coerceNumber (isScalar_of_isLiteral hall.2)⟩
  · cases hr

end Json

namespace Fragment

open Json

variable {e : Json}

/-- A negation is well formed when what is negated is. -/
theorem isWellFormed_negateExpr (h : e.IsWellFormed) : (negateExpr e).IsWellFormed :=
  IsFreeKey.single (by decide) (isWellFormed_arr_iff.mpr (by simpa using h))

/-- An expression as a query is well formed when the expression is. -/
theorem isWellFormed_exprQuery (h : e.IsWellFormed) : (exprQuery e).IsWellFormed :=
  IsFreeKey.single (by decide) h

/-- The negation of a query is well formed when the query is. -/
theorem isWellFormed_negateQuery (h : e.IsWellFormed) : (negateQuery e).IsWellFormed := by
  unfold negateQuery
  split
  · next e =>
    exact isWellFormed_exprQuery (isWellFormed_negateExpr (isWellFormed_single_iff.mp h).value)
  · exact IsFreeKey.single (by decide) (isWellFormed_arr_iff.mpr (by simpa using h))

/-- An array to walk over is well formed when what yields it is. -/
theorem isWellFormed_arrayInput (h : e.IsWellFormed) : (arrayInput e).IsWellFormed :=
  IsFreeKey.single (by decide) (isWellFormed_pair h (isWellFormed_arr_iff.mpr (by simp)))

/-- A size is well formed when what yields the array is an operator. -/
theorem isWellFormed_size {key : String} (h : (single key e).IsWellFormed) :
    (single "$size" (single key e)).IsWellFormed :=
  isWellFormed_single_iff.mpr ⟨by decide, rfl, h⟩

/-- The size of an array is well formed when what yields the array is. -/
theorem isWellFormed_sizeOfArray (h : e.IsWellFormed) : (sizeOfArray e).IsWellFormed :=
  isWellFormed_size (isWellFormed_arrayInput h)

end Fragment

/-- The literals of a list condition are missing, null, numbers or texts, and its array begins with
no dollar sign. -/
structure ListCondition.IsWellTyped (d : ListCondition) : Prop where
  array : ∀ path ∈ d.arrayPath?, beginsWith "$" path = false
  scalar : ∀ v ∈ d.operand.literal?, (v.isLiteral || v.isNull) = true
  comparisonValue : ∀ v ∈ d.comparisonValue, (v.isLiteral || v.isNull) = true

/-- Whether a list condition is well typed is decided by its array and its literals. -/
instance (d : ListCondition) : Decidable d.IsWellTyped :=
  decidable_of_iff ((∀ path ∈ d.arrayPath?, beginsWith "$" path = false) ∧
      (∀ v ∈ d.operand.literal?, (v.isLiteral || v.isNull) = true) ∧
      ∀ v ∈ d.comparisonValue, (v.isLiteral || v.isNull) = true)
    ⟨fun ⟨h, h', h''⟩ ↦ ⟨h, h', h''⟩, fun ⟨h, h', h''⟩ ↦ ⟨h, h', h''⟩⟩

namespace ListQuery

open Json Fragment

/-- The element predicate of a question is well formed, and its literals are null, numbers or texts.
-/
structure IsWellFormed (q : ListQuery) : Prop where
  element : ∀ e ∈ q.element, e.IsWellFormed
  scalar : ∀ v ∈ q.scalar, (v.isLiteral || v.isNull) = true
  comparisonValue : ∀ v ∈ q.comparisonValue, (v.isLiteral || v.isNull) = true

variable {q : ListQuery}

/-- The question of a list condition is well formed where its element predicate is. -/
theorem isWellFormed_ofListCondition? {d : ListCondition} {outer : Option Operator} {scope : Scope}
    {element : Option Json} (hd : d.IsWellTyped) (helement : ∀ e ∈ element, e.IsWellFormed)
    (hq : ofListCondition? d outer scope element = some q) : q.IsWellFormed := by
  simp only [ofListCondition?, Option.bind_eq_bind, Option.bind_eq_some_iff] at hq
  obtain ⟨op, -, path, -, hq⟩ := hq
  cases hq
  exact ⟨helement, hd.scalar, hd.comparisonValue⟩

private theorem isScalar_of_not_isNull {v : Json} (h : (v.isLiteral || v.isNull) = true)
    (hnull : v.isNull = false) : v.isScalar = true := by
  rw [hnull, Bool.or_false] at h
  exact isScalar_of_isLiteral h

private theorem isScalar_of_isComparable {v : Json} (h : (v.isLiteral || v.isNull) = true)
    (hv : v.isComparable = true) : v.isScalar = true := by
  apply isScalar_of_not_isNull h
  simpa using (Bool.and_eq_true_iff.mp hv).1

private theorem isWellFormed_input : q.input.IsWellFormed :=
  isWellFormed_arrayInput (isWellFormed_str _)

private theorem isFreeKey_key (op : ListOperator) : IsFreeKey op.key := by
  rcases op with (_ | _) | _ | (_ | _ | _ | _) <;> decide

/-- An element predicate is well formed where its question is. -/
theorem IsWellFormed.elementPredicate (h : q.IsWellFormed) {p : Json}
    (hp : q.elementPredicate? = some p) : p.IsWellFormed := by
  rcases Option.or_eq_some_iff.mp hp with he | ⟨-, hs⟩
  · exact h.element p he
  · obtain ⟨v, hv, rfl⟩ := Option.map_eq_some_iff.mp hs
    obtain ⟨hv, hcomparable⟩ := Option.filter_eq_some_iff.mp hv
    have hscalar := isScalar_of_isComparable (h.scalar v hv) hcomparable
    exact isWellFormed_comparison .eq (isWellFormed_str _) (isWellFormed_of_isScalar hscalar)
      (.inl rfl)

private theorem isWellFormed_walk {key : String} {p : Json} (hkey : IsFreeKey key)
    (hp : p.IsWellFormed) : (Json.obj [(key, p), ("input", q.input)]).IsWellFormed := by
  have hinput : IsFreeKey "input" := by decide
  exact isWellFormed_obj_cons (hkey.isWellFormedMember hp)
    (List.forall_mem_singleton.mpr (hinput.isWellFormedMember isWellFormed_input))

/-- A quantifier is well formed where its question is. -/
theorem IsWellFormed.quantifierExpr (h : q.IsWellFormed) : q.quantifierExpr.IsWellFormed := by
  apply (isFreeKey_key q.op).single
  split
  · next p hp =>
    exact IsFreeKey.single (by decide) (isWellFormed_walk (by decide) (h.elementPredicate hp))
  · exact isWellFormed_input

/-- A filter is well formed where its question is. -/
theorem IsWellFormed.filterExpr (h : q.IsWellFormed) {e : Json} (he : q.filterExpr? = some e) :
    e.IsWellFormed := by
  obtain ⟨p, hp, rfl⟩ := Option.map_eq_some_iff.mp he
  exact IsFreeKey.single (by decide) (isWellFormed_walk (by decide) (h.elementPredicate hp))

/-- The elements that pass a filter, or all of them, are well formed where the question is. -/
theorem IsWellFormed.filteredExpr (h : q.IsWellFormed) : q.filteredExpr.IsWellFormed := by
  rw [ListQuery.filteredExpr]
  cases he : q.filterExpr? with
  | none => exact isWellFormed_input
  | some e => exact h.filterExpr he

/-- An aggregate is well formed. -/
theorem isWellFormed_aggregateExpr : q.aggregateExpr.IsWellFormed :=
  (isFreeKey_key q.op).single (isWellFormed_str _)

/-- The comparison of an aggregate is well formed where its question is. -/
theorem IsWellFormed.aggregateComparison (h : q.IsWellFormed) :
    q.aggregateComparison.IsWellFormed := by
  rw [ListQuery.aggregateComparison]
  split
  · next target ht =>
    have hscalar : target.coerceNumber.isScalar = true := by
      apply isScalar_coerceNumber
      rcases Option.or_eq_some_iff.mp ht with hc | ⟨-, hs⟩
      · obtain ⟨hc, hnull⟩ := Option.filter_eq_some_iff.mp hc
        exact isScalar_of_not_isNull (h.comparisonValue target hc) (by simpa using hnull)
      · obtain ⟨hs, hcomparable⟩ := Option.filter_eq_some_iff.mp hs
        exact isScalar_of_isComparable (h.scalar target hs) hcomparable
    exact isWellFormed_comparison _ isWellFormed_aggregateExpr (isWellFormed_of_isScalar hscalar)
      (.inr hscalar)
  · exact isWellFormed_comparison .gt isWellFormed_aggregateExpr (isWellFormed_int 0) (.inr rfl)

/-- The test that a filter leaves something is well formed where its question is. -/
theorem IsWellFormed.isNotEmpty (h : q.IsWellFormed) {e : Json} (he : q.filterExpr? = some e) :
    (isNotEmpty e).IsWellFormed := by
  have hfiltered := h.filterExpr he
  obtain ⟨p, -, rfl⟩ := Option.map_eq_some_iff.mp he
  exact isWellFormed_comparison .gt (isWellFormed_size hfiltered) (isWellFormed_int 0) (.inr rfl)

/-- A question as an expression is well formed where the question is. -/
theorem IsWellFormed.predicate_toExpr (h : q.IsWellFormed) : q.predicate.toExpr.IsWellFormed := by
  unfold ListQuery.predicate
  split
  · exact h.quantifierExpr
  · split
    · next filtered hf => exact h.isNotEmpty hf
    · exact IsFreeKey.single (by decide) (isWellFormed_str _)
  · exact h.aggregateComparison

/-- A question as a query is well formed where the question is and its array is no key that is
looked at. -/
theorem IsWellFormed.predicate_toQuery (h : q.IsWellFormed) (hpath : IsFreeKey q.arrayPath) :
    q.predicate.toQuery.IsWellFormed := by
  unfold ListQuery.predicate
  split
  · exact isWellFormed_exprQuery h.quantifierExpr
  · split
    · next filtered hf => exact isWellFormed_exprQuery (h.isNotEmpty hf)
    · apply hpath.single
      exact isWellFormed_obj_cons (IsFreeKey.isWellFormedMember (by decide) (isWellFormed_bool _))
        (List.forall_mem_singleton.mpr
          (IsFreeKey.isWellFormedMember (by decide) (isWellFormed_str _)))
  · exact isWellFormed_exprQuery h.aggregateComparison

end ListQuery
end FilterPipeline
