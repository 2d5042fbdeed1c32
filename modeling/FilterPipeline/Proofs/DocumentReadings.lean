import FilterPipeline.Proofs.FormLaws
import FilterPipeline.Proofs.LeadingMinus

/-!
# Queries and expressions on a document

A path leads through the members of objects and to elements of arrays by their indexes. The tests
and expressions that ask for presence and for lengths are evaluated on a document; what others come
to is left open. Main statements: the path of an index leads to the element with that index, of an
array at whatever path; and a reference has the value that the path leads to.
-/

namespace FilterPipeline

open Fragment

namespace Json

/-- What one part of a path leads to: the member with that key, or the element with that index. -/
def follow? (v : Json) (part : String) : Option Json :=
  match v with
  | .obj members => Members.get? members part
  | .arr items => (items.zipIdx.find? fun m ↦ toString m.2 == part).map (·.1)
  | _ => none

/-- What a path leads to, part by part. -/
def valueAt? (v : Json) (path : String) : Option Json :=
  (Text.splitString '.' path).foldlM follow? v

/-- The rational number that a value is. -/
def toRat? : Json → Option ℚ
  | .int n => some n
  | .double x => x.toRat?
  | _ => none

/-- Whether a value counts as true. -/
def isTruthy : Json → Bool
  | .null => false
  | .bool b => b
  | .int n => n != 0
  | .double x => !x.same (.zero false)
  | _ => true

private theorem follow?_index (items : List Json) (i : Nat) :
    (arr items).follow? (toString i) = items[i]? := by
  have hfrom (start : Nat) : ((items.zipIdx start).find? fun m ↦
      toString m.2 == toString (start + i)).map (·.1) = items[i]? := by
    induction items generalizing start i with
    | nil => rfl
    | cons v items ih =>
      rw [List.zipIdx_cons, List.find?_cons]
      cases i with
      | zero => simp
      | succ i =>
        have hne : (toString start == toString (start + (i + 1))) = false :=
          beq_eq_false_iff_ne.mpr fun h ↦ by
            have := toString_injective h
            omega
        rw [hne, List.getElem?_cons_succ, ← ih i (start + 1), Nat.add_right_comm, Nat.add_assoc]
  simpa [follow?] using hfrom 0

private theorem valueAt?_below (v : Json) (path : String) {part : String} (h : HasNoDot part) :
    v.valueAt? (path ++ "." ++ part) = (v.valueAt? path).bind (·.follow? part) := by
  rw [valueAt?, valueAt?, Text.splitString_dot, Text.splitString_of_not_mem h, List.foldlM_append]
  refine congrArg (Option.bind _) (funext fun w ↦ ?_)
  simp only [List.foldlM_cons, List.foldlM_nil, bind_pure]

/-- There is something at the path of an index just when the array at the path before that is longer
than the index. -/
theorem isSome_valueAt?_index {v : Json} {path : String} {items : List Json}
    (h : v.valueAt? path = some (.arr items)) {i : Int} (hi : 0 ≤ i) :
    (v.valueAt? (path ++ "." ++ toString i)).isSome = decide (i < items.length) := by
  obtain ⟨i, rfl⟩ := Int.eq_ofNat_of_zero_le hi
  have hindex : toString (i : Int) = toString i := rfl
  rw [hindex, valueAt?_below v path (isWord_toString i).hasNoDot, h, Option.bind_some,
    follow?_index]
  by_cases hlength : i < items.length <;> simp [hlength]

end Json

/-- A document, and what those tests and expressions come to on it that do not ask for presence or
lengths. -/
structure DocumentReading where
  document : Json
  test : (path : String) → Json → Bool
  value : Json → Option Json

namespace DocumentReading

variable (D : DocumentReading)

/-- The truth value of a comparison of numbers. -/
def compared? (holds : ℚ → ℚ → Bool) (a b : Option Json) : Option Json := do
  let x ← a.bind Json.toRat?
  let y ← b.bind Json.toRat?
  some (.bool (holds x y))

/-- The value of an expression, if it has one. Constants are their own values, and a reference to a
path has the value that the path leads to. -/
def value? : Json → Option Json
  | .obj [("$ifNull", .arr [a, b])] =>
    match value? a with
    | none | some .null => value? b
    | some v => some v
  | .obj [("$size", a)] => ((value? a).bind Json.items?).map fun items ↦ .int items.length
  | .obj [("$gt", .arr [a, b])] => compared? (fun x y ↦ decide (y < x)) (value? a) (value? b)
  | .obj [("$lt", .arr [a, b])] => compared? (fun x y ↦ decide (x < y)) (value? a) (value? b)
  | .obj members => D.value (.obj members)
  | .arr [] => some (.arr [])
  | .arr items => D.value (.arr items)
  | .str s =>
    match s.toList with
    | '$' :: '$' :: _ => D.value (.str s)
    | '$' :: path => D.document.valueAt? (String.ofList path)
    | _ => some (.str s)
  | v => some v

/-- The reading of queries on the document. -/
def reading : QueryReading where
  test path t :=
    match t with
    | .obj [("$exists", .bool b)] => (D.document.valueAt? path).isSome == b
    | t => D.test path t
  expr e := (D.value? e).any Json.isTruthy

/-- A path that names a field of the document is referred to by its value. -/
theorem value?_reference {path : String} (h : IsDocumentPath path) :
    D.value? (.str (FieldScope.document.reference path)) = D.document.valueAt? path := by
  have hpath : ("$" ++ path).toList = '$' :: path.toList := by
    rw [String.toList_append]
    rfl
  rw [h.reference, value?, hpath]
  split
  · next rest heq =>
    -- a path with a dollar sign in front would be a reference itself
    have hdollar : beginsWith "$" path = true :=
      Json.beginsWith_dollar_iff.mpr ⟨rest, (List.cons.inj heq).2⟩
    rw [h.1] at hdollar
    cases hdollar
  · next rest _ heq =>
    rw [← (List.cons.inj heq).2, String.ofList_toList]
  · next hnone => exact absurd rfl (hnone _)

variable {D} {e : Json} {items : List Json}

/-- The size of an array is its length. -/
theorem value?_sizeOfArray (h : D.value? e = some (.arr items)) :
    D.value? (sizeOfArray e) = some (.int items.length) := by
  simp [sizeOfArray, arrayInput, Json.single, value?, h, Json.items?]

end DocumentReading
end FilterPipeline
