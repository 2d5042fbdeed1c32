import FilterPipeline.Proofs.DocumentReadings
import FilterPipeline.Proofs.TwoForms

/-!
# Tests of lengths

Whether an array is longer or shorter than a number is asked in a query by an index at which there
is or is not an element, and in an expression by the size of the array; a number that no length is
below, or not above, makes it a constant. Main statement: on every document both forms mean the
comparison of the length with the number, be it a fraction or past all indexes.
-/

namespace FilterPipeline

open Fragment

namespace Double

variable {n : Double} {x : ℚ}

/-- The rational number that a value is is the quotient of its fraction. -/
theorem exists_toFraction?_of_toRat? (h : n.toRat? = some x) :
    ∃ k d, n.toFraction? = some (k, d) ∧ 0 < d ∧ x = k / d := by
  cases n with
  | infinite negative => cases h
  | nan => cases h
  | finite negative m q =>
    obtain ⟨⟨k, d⟩, hfraction⟩ := exists_toFraction? (x := finite negative m q) rfl
    refine ⟨k, d, hfraction, den_pos hfraction, ?_⟩
    have hpow : (2 : ℚ) ^ q = (twoPow q).1 / (twoPow q).2 := (twoPow_spec q).2.2.symm
    simp only [toRat?, Option.some.injEq] at h
    simp only [toFraction?, Option.some.injEq, Prod.mk.injEq] at hfraction
    rw [← h, hpow, ← hfraction.1, ← hfraction.2]
    cases negative <;> simp <;> ring

/-- The whole number that a value is is its rational number. -/
theorem toRat?_eq_of_toInt? {k : Int} (h : n.toRat? = some x) (hk : n.toInt? = some k) :
    x = k := by
  cases n with
  | infinite negative => cases h
  | nan => cases h
  | finite negative m q =>
    simp only [toInt?] at hk
    split at hk
    · next hq =>
      obtain ⟨j, rfl⟩ := Int.eq_ofNat_of_zero_le hq
      simp only [toRat?, Option.some.injEq] at h
      simp only [Int.toNat_natCast, Option.some.injEq] at hk
      rw [← h, ← hk]
      cases negative <;> simp
    · cases hk

end Double

/-- A computed number has the value that it was computed from. -/
theorem Json.toRat?_ofDouble {n : Double} {x : ℚ} (h : n.toRat? = some x) :
    (Json.ofDouble n).toRat? = some x := by
  unfold ofDouble
  split
  · next k hk =>
    split
    · rw [n.toRat?_eq_of_toInt? h hk, toRat?]
    · exact h
  · cases n with
    | finite negative m q => exact h
    | infinite negative => cases h
    | nan => cases h

private theorem QueryReading.holds_below (V : QueryReading) (path part : String) (t : Json) :
    V.holds (.single (path ++ "." ++ part) t) = V.test (path ++ "." ++ part) t := by
  have hdot : '.' ∈ (path ++ "." ++ part).toList := by simp [String.toList_append]
  have hne (key : String) (hkey : HasNoDot key) : path ++ "." ++ part ≠ key :=
    fun h ↦ hkey (h ▸ hdot)
  simp only [Json.single, holds, membersHold, if_neg (hne "$expr" (by decide)),
    if_neg (hne "$and" (by decide)), if_neg (hne "$or" (by decide)),
    if_neg (hne "$nor" (by decide)), Bool.and_true]

namespace DocumentReading

variable {D : DocumentReading} {field : String} {lhs : Json} {items : List Json} {n : Double}
  {x : ℚ}

/-- A query for an index holds when the array at hand reaches so far, or when it does not. -/
theorem holds_index (hfield : D.document.valueAt? field = some (.arr items)) {i : Int}
    (hi : 0 ≤ i) (b : Bool) :
    D.reading.holds (.single (field ++ "." ++ toString i) (.single "$exists" (.bool b))) =
      (decide (i < items.length) == b) := by
  rw [D.reading.holds_below, ← Json.isSome_valueAt?_index hfield hi]
  rfl

/-- A truth value holds when it is true. -/
theorem exprHolds_bool (b : Bool) : D.reading.exprHolds (.bool b) = b := by
  simp [QueryReading.exprHolds, reading, value?, Json.isTruthy]

/-- A constant query holds when its truth value does. -/
theorem holds_constant (b : Bool) : D.reading.holds (exprQuery (.bool b)) = b :=
  (QueryReading.holds_exprQuery _).trans (exprHolds_bool b)

private theorem value?_ofDouble (n : Double) : D.value? (.ofDouble n) = some (.ofDouble n) := by
  unfold Json.ofDouble
  repeat' split
  all_goals rfl

/-- The size of an array is compared with a number as its length is. -/
theorem exprHolds_sizeOfArray (hlhs : D.value? lhs = some (.arr items))
    (hx : n.toRat? = some x) :
    D.reading.exprHolds (.single "$gt" (.arr [sizeOfArray lhs, .ofDouble n])) =
        decide (x < items.length) ∧
      D.reading.exprHolds (.single "$lt" (.arr [sizeOfArray lhs, .ofDouble n])) =
        decide (items.length < x) := by
  have hsize := value?_sizeOfArray hlhs
  have hnumber : (D.value? (.ofDouble n)).bind Json.toRat? = some x := by
    rw [D.value?_ofDouble, Option.bind_some, Json.toRat?_ofDouble hx]
  constructor <;>
    simp [QueryReading.exprHolds, reading, Json.single, value?, compared?, hsize, hnumber,
      Json.toRat?, Json.isTruthy]

private theorem lt_length_iff {k : Int} {d : Nat} (hd : 0 < d) (length : Nat) :
    ((k : ℚ) / d < length ↔ k < length * d) ∧ ((length : ℚ) < k / d ↔ length * d < k) := by
  have hd : (0 : ℚ) < d := Nat.cast_pos.mpr hd
  rw [div_lt_iff₀ hd, lt_div_iff₀ hd]
  constructor <;> exact_mod_cast Iff.rfl

section Tests

variable (g : Generator) (hfield : D.document.valueAt? field = some (.arr items))
  (hlhs : D.value? lhs = some (.arr items)) (hlength : items.length < Double.maxInt64)
  {v : Json} (hv : v.number? = some n) (hx : n.toRat? = some x)
  (type type' : Option FieldType)

include hfield hlhs hlength hv hx

/-- Both forms of the test for a longer array hold when the array is longer. -/
theorem longerThan_holds :
    ∃ q e, g.compareQuery field .longerThan v type = some q ∧
      g.compareExpr lhs .longerThan v type' = some e ∧
      D.reading.holds q = decide (x < items.length) ∧
      D.reading.exprHolds e = decide (x < items.length) := by
  obtain ⟨k, d, hfraction, hd, rfl⟩ := Double.exists_toFraction?_of_toRat? hx
  have hlt := (lt_length_iff (k := k) hd items.length).1
  simp only [Generator.compareQuery, Generator.compareExpr, hv, Option.bind_eq_bind,
    Option.bind_some, (Double.sign_eq hfraction).1, decide_eq_true_eq]
  split
  · next hk =>
    -- every length is above a negative number
    have hnonneg : 0 ≤ (items.length : ℤ) * d := by positivity
    have htrue : decide ((k : ℚ) / d < items.length) = true :=
      decide_eq_true (hlt.mpr (by omega))
    rw [htrue]
    exact ⟨_, _, rfl, rfl, holds_constant true, exprHolds_bool true⟩
  · next hk =>
    obtain ⟨hindex, hfloor⟩ := Double.floorInt64_lt_iff hfraction (by omega) hlength
    refine ⟨_, _, rfl, rfl, ?_, (exprHolds_sizeOfArray hlhs hx).1⟩
    rw [holds_index hfield hindex, decide_eq_decide.mpr (hfloor.trans hlt.symm), beq_true]

/-- Both forms of the test for a shorter array hold when the array is shorter. -/
theorem shorterThan_holds :
    ∃ q e, g.compareQuery field .shorterThan v type = some q ∧
      g.compareExpr lhs .shorterThan v type' = some e ∧
      D.reading.holds q = decide (items.length < x) ∧
      D.reading.exprHolds e = decide (items.length < x) := by
  obtain ⟨k, d, hfraction, hd, rfl⟩ := Double.exists_toFraction?_of_toRat? hx
  have hlt := (lt_length_iff (k := k) hd items.length).2
  simp only [Generator.compareQuery, Generator.compareExpr, hv, Option.bind_eq_bind,
    Option.bind_some, (Double.sign_eq hfraction).2, decide_eq_true_eq]
  split
  · next hk =>
    -- no length is below a number that is not positive
    have hnonneg : 0 ≤ (items.length : ℤ) * d := by positivity
    have hfalse : decide ((items.length : ℚ) < k / d) = false :=
      decide_eq_false fun h ↦ by
        have := hlt.mp h
        omega
    rw [hfalse]
    exact ⟨_, _, rfl, rfl, holds_constant false, exprHolds_bool false⟩
  · next hk =>
    obtain ⟨hindex, hceil⟩ := Double.ceilInt64_lt_iff hfraction (by omega) hlength
    refine ⟨_, _, rfl, rfl, ?_, (exprHolds_sizeOfArray hlhs hx).2⟩
    rw [holds_index hfield hindex, decide_eq_decide.mpr (hceil.trans (not_congr hlt.symm)),
      decide_not, beq_false, Bool.not_not]

end Tests

/-- The length tests of an array mean the comparison of its length with the number that is given for
them, in the query as in the expression. The number may be any that is finite, or its text; and the
expression that is tested may be the reference to the field, whose value is the same array. -/
theorem length_tests_hold (D : DocumentReading) (g : Generator) {field : String} {lhs v : Json}
    {items : List Json} {n : Double} {x : ℚ} (type type' : Option FieldType)
    (hfield : D.document.valueAt? field = some (.arr items))
    (hlhs : D.value? lhs = some (.arr items)) (hlength : items.length < Double.maxInt64)
    (hv : v.number? = some n) (hx : n.toRat? = some x) :
    (∃ q e, g.compareQuery field .longerThan v type = some q ∧
        g.compareExpr lhs .longerThan v type' = some e ∧
        D.reading.holds q = decide (x < items.length) ∧
        D.reading.exprHolds e = decide (x < items.length)) ∧
      (∃ q e, g.compareQuery field .shorterThan v type = some q ∧
        g.compareExpr lhs .shorterThan v type' = some e ∧
        D.reading.holds q = decide (items.length < x) ∧
        D.reading.exprHolds e = decide (items.length < x)) ∧
      (IsDocumentPath field →
        D.value? (.str (FieldScope.document.reference field)) = some (.arr items)) :=
  ⟨longerThan_holds g hfield hlhs hlength hv hx type type',
    shorterThan_holds g hfield hlhs hlength hv hx type type',
    fun hpath ↦ (D.value?_reference hpath).trans hfield⟩

/-- A document with three earlier observations. -/
def threeObservations : DocumentReading where
  document := .single "candidates" (.single "prv" (.arr [.int 7, .null, .str "x"]))
  test _ _ := false
  value _ := none

/-- There are more than 2.5 of them, and the element with the index 2 shows it. -/
theorem threeObservations_longer_than_fraction :
    ∃ q e, Context.survey.generator.compareQuery "candidates.prv" .longerThan (.str "2.5") none =
        some q ∧
      Context.survey.generator.compareExpr (.str "$candidates.prv") .longerThan (.str "2.5") none =
        some e ∧
      threeObservations.reading.holds q = true ∧ threeObservations.reading.exprHolds e = true := by
  have hfield : threeObservations.document.valueAt? "candidates.prv" =
      some (.arr [.int 7, .null, .str "x"]) := rfl
  have hpath : IsDocumentPath "candidates.prv" := by decide +kernel
  have hlhs : threeObservations.value? (.str "$candidates.prv") =
      some (.arr [.int 7, .null, .str "x"]) :=
    (threeObservations.value?_reference hpath).trans hfield
  have hnumber : (Json.str "2.5").number? = some (.finite false 5 (-1)) := by decide +kernel
  obtain ⟨⟨q, e, hq, he, hholds, hexpr⟩, -⟩ := threeObservations.length_tests_hold
    Context.survey.generator none none hfield hlhs (by decide) hnumber rfl
  have hlonger : ((1 : ℚ) * 5 * 2 ^ (-1 : ℤ)) < 3 := by norm_num
  refine ⟨q, e, hq, he, hholds.trans (decide_eq_true ?_), hexpr.trans (decide_eq_true ?_)⟩ <;>
    simpa using hlonger

end DocumentReading

end FilterPipeline
