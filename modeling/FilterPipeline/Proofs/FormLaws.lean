import FilterPipeline.Proofs.Contributing
import FilterPipeline.Proofs.ProjectionNames
import FilterPipeline.Proofs.QueryTruth
import FilterPipeline.Proofs.References
import FilterPipeline.Proofs.Rounding

/-!
# Laws that tie tests to expressions

A query tests a path, and an expression compares a reference to it. A reading of both is sensible
when the two agree, when connectives are Boolean, and when a computed field stands for the
expression that it is computed by. Main statement: there are such readings, for every filter.
-/

namespace FilterPipeline

open Fragment

namespace Double

variable {x : Double} {k : Int} {d : Nat}

/-- A finite number is a fraction. -/
theorem exists_toFraction? (h : x.isFinite = true) : ∃ f, x.toFraction? = some f := by
  cases x with
  | finite negative m q => exact ⟨_, rfl⟩
  | infinite negative => cases h
  | nan => cases h

/-- The denominator of a number is positive. -/
theorem den_pos (h : x.toFraction? = some (k, d)) : 0 < d := by
  cases x with
  | infinite negative => cases h
  | nan => cases h
  | finite negative m q =>
    cases h
    exact (twoPow_spec q).2.1

/-- The sign of a number is that of its numerator. -/
theorem sign_eq (h : x.toFraction? = some (k, d)) :
    x.isNegative = decide (k < 0) ∧ x.isNonpositive = decide (k ≤ 0) := by
  cases x with
  | infinite negative => cases h
  | nan => cases h
  | finite negative m q =>
    have hn : 0 < ((twoPow q).1 : Int) := Int.natCast_pos.mpr (twoPow_spec q).1
    simp only [toFraction?, Option.some.injEq, Prod.mk.injEq] at h
    rw [← h.1]
    rcases Nat.eq_zero_or_pos m with hm | hm
    · subst hm
      cases negative <;> simp [isNegative, isNonpositive]
    · have hpos : 0 < (m : Int) * (twoPow q).1 := Int.mul_pos (Int.natCast_pos.mpr hm) hn
      have hne : m ≠ 0 := hm.ne'
      cases negative
      · simp [isNegative, isNonpositive, hne, hpos.le, hpos.not_ge]
      · simp [isNegative, isNonpositive, hne, hpos, hpos.le]

private theorem toInt?_eq {w : Int} (h : x.toFraction? = some (k, d)) (hw : x.toInt? = some w) :
    w = k := by
  cases x with
  | infinite negative => cases h
  | nan => cases h
  | finite negative m q =>
    simp only [toInt?] at hw
    split at hw
    · next hq =>
      cases hw
      simp only [toFraction?, twoPow, if_pos hq, Option.some.injEq, Prod.mk.injEq] at h
      rw [← h.1]
      simp
    · cases hw

end Double

/-- A text that names a field of the document: it is no reference, and not relative to an element.
-/
def IsDocumentPath (path : String) : Prop :=
  beginsWith "$" path = false ∧ isElementPath path = false

/-- Being a path of the document is decided by how the text begins. -/
instance (path : String) : Decidable (IsDocumentPath path) :=
  inferInstanceAs (Decidable (beginsWith "$" path = false ∧ isElementPath path = false))

/-- A field of the document is referred to by its name with a dollar sign in front. -/
theorem IsDocumentPath.reference {path : String} (h : IsDocumentPath path) :
    FieldScope.document.reference path = "$" ++ path := by
  simp [FieldScope.reference, h.1, h.2]

/-- The second value comes from the first when some references to computed fields are replaced by
what they are computed by. -/
inductive Json.WritesOut (computed : String → Option Json) : Json → Json → Prop
  | refl (v : Json) : WritesOut computed v v
  | field {name : String} {e : Json} (h : computed name = some e) :
    WritesOut computed (.str ("$" ++ name)) e
  | item {v w : Json} {items items' : List Json} (h : WritesOut computed v w)
    (hrest : WritesOut computed (.arr items) (.arr items')) :
    WritesOut computed (.arr (v :: items)) (.arr (w :: items'))
  | member {key : String} {v w : Json} {members members' : Members} (h : WritesOut computed v w)
    (hrest : WritesOut computed (.obj members) (.obj members')) :
    WritesOut computed (.obj ((key, v) :: members)) (.obj ((key, w) :: members'))

namespace Json.WritesOut

variable {computed : String → Option Json} {v w : Json}

/-- References may be replaced in the operand of an operator. -/
theorem single (key : String) (h : v.WritesOut computed w) :
    (Json.single key v).WritesOut computed (.single key w) :=
  .member h (.refl _)

/-- References may be replaced in the first of several items. -/
theorem first (h : v.WritesOut computed w) (items : List Json) :
    (Json.arr (v :: items)).WritesOut computed (.arr (w :: items)) :=
  .item h (.refl _)

end Json.WritesOut

/-- The expression that a projection computes a list variable by, if it does. -/
def Generator.computed? (g : Generator) (p : Projection) (name : String) : Option Json :=
  if p.lists.contains name then g.listField? name else none

/-- A reading of tests and expressions in which both agree on what they have in common. The array at
a path has some length, which 64 bits can count past. -/
structure QueryReading.FormLaws (V : QueryReading) (length : String → Nat) (g : Generator)
    (p : Projection) : Prop where
  /-- Conjunctions of expressions are Boolean. -/
  and : ∀ es, V.exprHolds (.single "$and" (.arr es)) = es.all V.exprHolds
  or : ∀ es, V.exprHolds (.single "$or" (.arr es)) = es.any V.exprHolds
  compare : ∀ path, IsDocumentPath path → ∀ (c : Comparison) v,
    V.test path (.single c.key v) = V.exprHolds (.single c.key (.arr [.str ("$" ++ path), v]))
  /-- One of a single value is equality, and none of it is inequality. -/
  inOne : ∀ path, IsDocumentPath path → ∀ v, V.test path (.single "$in" (.arr [v])) =
    V.exprHolds (.single "$eq" (.arr [.str ("$" ++ path), v]))
  notInOne : ∀ path, IsDocumentPath path → ∀ v, V.test path (.single "$nin" (.arr [v])) =
    V.exprHolds (.single "$ne" (.arr [.str ("$" ++ path), v]))
  oneOf : ∀ path, IsDocumentPath path → ∀ items, V.test path (.single "$in" (.arr items)) =
    V.exprHolds (.single "$in" (.arr [.str ("$" ++ path), .arr items]))
  noneOf : ∀ path, IsDocumentPath path → ∀ items, V.test path (.single "$nin" (.arr items)) =
    !V.exprHolds (.single "$in" (.arr [.str ("$" ++ path), .arr items]))
  regex : ∀ path, IsDocumentPath path → ∀ pattern, V.test path (g.regexTest pattern) =
    V.exprHolds (g.regexExpr (.str ("$" ++ path)) pattern)
  present : ∀ path, IsDocumentPath path → ∀ b, V.test path (.single "$exists" (.bool b)) =
    V.exprHolds (.single (if b then "$ne" else "$eq")
      (.arr [.single "$type" (.str ("$" ++ path)), .str "missing"]))
  range : ∀ path, IsDocumentPath path → ∀ low high,
    V.test path (.obj [("$gte", low), ("$lte", high)]) =
      (V.test path (.single "$gte" low) && V.test path (.single "$lte" high))
  /-- There is an element at an index when the array is longer than that. -/
  index : ∀ path, IsDocumentPath path → ∀ i : Int, 0 ≤ i → ∀ b,
    V.test (path ++ "." ++ toString i) (.single "$exists" (.bool b)) =
      (b == decide (i < length path))
  longer : ∀ path, IsDocumentPath path → ∀ (n : Double) (k : Int) (d : Nat),
    n.toFraction? = some (k, d) → 0 ≤ k →
    V.exprHolds (.single "$gt" (.arr [sizeOfArray (.str ("$" ++ path)), .ofDouble n])) =
      decide (k < length path * d)
  shorter : ∀ path, IsDocumentPath path → ∀ (n : Double) (k : Int) (d : Nat),
    n.toFraction? = some (k, d) → 0 ≤ k →
    V.exprHolds (.single "$lt" (.arr [sizeOfArray (.str ("$" ++ path)), .ofDouble n])) =
      decide (length path * d < k)
  length_lt : ∀ path, length path < Double.maxInt64
  isArray : ∀ path, IsDocumentPath path →
    V.test path (.obj [("$exists", .bool true), ("$type", .str "array")]) =
      V.exprHolds (.single "$isArray" (.str ("$" ++ path)))
  /-- The field of a negated block is false when the expression that computes it does not hold. -/
  negated : ∀ n ∈ p.blocks, ∀ e, g.childrenExpr .document n.2 = some e →
    V.test n.1 (.bool false) = !V.exprHolds e
  /-- A computed field stands for the expression that it is computed by. -/
  written : ∀ e e', e.WritesOut (g.computed? p) e' → V.exprHolds e = V.exprHolds e'

/-- What an expression yields in a document without fields, as far as that matters to comparisons.
-/
inductive Outcome where
  | truth (b : Bool)
  /-- The name of the type of a missing field, as `$type` gives it. -/
  | missingType
  /-- The length of an empty array. -/
  | zero
  | number (positive : Bool)
  | list (items : List Outcome)
  | nothing

namespace Outcome

/-- Whether an expression with some outcome holds. -/
def holds : Outcome → Bool
  | truth b => b
  | _ => false

/-- The outcome of an operator, where every least value is `least`. -/
def apply (least : Outcome) : (key : String) → Outcome → Outcome
  | "$not", list [s] => truth !s.holds
  | "$and", list items => truth (items.all holds)
  | "$or", list items => truth (items.any holds)
  | "$type", _ => missingType
  | "$size", _ => zero
  | "$eq", list [missingType, missingType] => truth true
  | "$ne", list [missingType, missingType] => truth false
  | "$ne", _ => truth true
  | "$lt", list [zero, number positive] => truth positive
  | "$gt", list [number _, _] => truth true
  | "$min", _ => least
  | "$subtract", list [number _, number _] => number true
  | _, _ => nothing

variable (least : Outcome)

mutual

/-- The outcome of an expression in a document without fields. -/
def ofExpr : Json → Outcome
  | .null | .bool _ => nothing
  | .int n => number (0 < n)
  | .double x => number !x.isNonpositive
  | .str s => if s = "missing" then missingType else nothing
  | .arr items => list (ofItems items)
  | .obj members =>
    match ofMembers members with
    | [(key, s)] => apply least key s
    | _ => nothing

/-- The outcomes of items. -/
def ofItems : List Json → List Outcome
  | [] => []
  | v :: rest => ofExpr v :: ofItems rest

/-- The outcomes of the operands of members. -/
def ofMembers : List (String × Json) → List (String × Outcome)
  | [] => []
  | (key, v) :: rest => (key, ofExpr v) :: ofMembers rest

end

private theorem ofItems_eq_map (items : List Json) :
    ofItems least items = items.map (ofExpr least) := by
  induction items with
  | nil => rfl
  | cons v items ih => rw [ofItems, ih, List.map_cons]

/-- The outcome of an operator is decided by that of its operand. -/
@[simp] theorem ofExpr_single (key : String) (v : Json) :
    ofExpr least (.single key v) = apply least key (ofExpr least v) := by
  simp [Json.single, ofExpr, ofMembers]

/-- The outcome of a list is the list of outcomes. -/
@[simp] theorem ofExpr_arr (items : List Json) :
    ofExpr least (.arr items) = list (items.map (ofExpr least)) := by
  rw [ofExpr, ofItems_eq_map]

/-- A reference to a field yields nothing. -/
@[simp] theorem ofExpr_reference (path : String) : ofExpr least (.str ("$" ++ path)) = nothing := by
  have hne : "$" ++ path ≠ "missing" := by
    intro h
    have := congrArg (fun s ↦ s.toList.head?) h
    simp at this
  rw [ofExpr, if_neg hne]

variable {least} {computed : String → Option Json}

private theorem ofExpr_eq_of_writesOut
    (hcomputed : ∀ name e, computed name = some e → ofExpr least e = nothing) {v w : Json}
    (h : v.WritesOut computed w) : ofExpr least v = ofExpr least w := by
  -- members are looked at as a whole, so that their outcomes have to be kept one by one
  have hkept : ofExpr least v = ofExpr least w ∧
      ∀ members members', v = .obj members → w = .obj members' →
        ofMembers least members = ofMembers least members' := by
    induction h with
    | refl v =>
      refine ⟨rfl, fun members members' hv hv' ↦ ?_⟩
      cases hv
      cases hv'
      rfl
    | @field name e he =>
      exact ⟨by rw [hcomputed name e he, ofExpr_reference], fun members members' hv ↦ by cases hv⟩
    | item hv hrest ih ihrest =>
      refine ⟨?_, fun members members' hv ↦ by cases hv⟩
      have hitems := ihrest.1
      simp only [ofExpr, list.injEq] at hitems
      rw [ofExpr, ofExpr, ofItems, ofItems, ih.1, hitems]
    | @member key v w members members' hv hrest ih ihrest =>
      have hmembers : ofMembers least ((key, v) :: members) =
          ofMembers least ((key, w) :: members') := by
        rw [ofMembers, ofMembers, ih.1, ihrest.2 members members' rfl rfl]
      refine ⟨by rw [ofExpr, ofExpr, hmembers], fun _ _ hv hw ↦ ?_⟩
      cases hv
      cases hw
      exact hmembers
  exact hkept.1

end Outcome

/-- The tests that hold in a document without fields, where the fields of negated blocks are
computed by a projection. -/
def emptyTest (least : Outcome) (g : Generator) (p : Projection) (path : String) : Json → Bool
  | .obj [("$ne", _)] | .obj [("$nin", _)] => true
  | .obj [("$exists", .bool b)] => !b
  | .bool false =>
    !((p.blocks.find? (·.1 == path)).bind fun n ↦ g.childrenExpr .document n.2).any fun e ↦
      (Outcome.ofExpr least e).holds
  | _ => false

/-- The reading of tests and expressions in a document without fields, where a projection computes
the fields of negated blocks, and where least values yield the same throughout. -/
def emptyReading (least : Outcome) (g : Generator) (p : Projection) : QueryReading where
  test := emptyTest least g p
  expr e := (Outcome.ofExpr least e).holds

namespace QueryReading

variable {least : Outcome} {g : Generator} {p : Projection}

private theorem exprHolds_emptyReading (e : Json) :
    (emptyReading least g p).exprHolds e = (Outcome.ofExpr least e).holds := by
  induction e using exprHolds.induct with
  | case1 e ih => simp [exprHolds, ih, Outcome.ofExpr, Outcome.ofMembers, Outcome.ofItems,
      Outcome.apply, Outcome.holds]
  | case2 e h =>
    rw [exprHolds]
    · rfl
    · exact h

private theorem ofExpr_ofDouble {n : Double} {k : Int} {d : Nat}
    (hn : n.toFraction? = some (k, d)) :
    Outcome.ofExpr least (.ofDouble n) = .number (decide (0 < k)) := by
  cases n with
  | infinite negative => cases hn
  | nan => cases hn
  | finite negative m q =>
    have hpositive : (!(Double.finite negative m q).isNonpositive) = decide (0 < k) := by
      simp only [(Double.sign_eq hn).2, ← decide_not, Int.not_le]
    unfold Json.ofDouble
    cases hw : (Double.finite negative m q).toInt? with
    | none => simp [Double.isFinite, Outcome.ofExpr, hpositive]
    | some w =>
      simp only
      split
      · rw [Outcome.ofExpr, Double.toInt?_eq hn hw]
      · rw [Outcome.ofExpr, hpositive]

/-- The laws hold of the reading of a document without fields, if least values yield nothing or no
list variable is computed. -/
theorem formLaws_emptyReading (hnames : (p.blocks.map (·.1)).Nodup)
    (hcomputed : ∀ name e, g.computed? p name = some e →
      Outcome.ofExpr least e = .nothing) :
    (emptyReading least g p).FormLaws (fun _ ↦ 0) g p where
  and es := by
    simp only [exprHolds_emptyReading, Outcome.ofExpr_single, Outcome.ofExpr_arr, Outcome.apply,
      Outcome.holds, List.all_map]
    exact congrArg es.all (funext fun e ↦ (exprHolds_emptyReading e).symm)
  or es := by
    simp only [exprHolds_emptyReading, Outcome.ofExpr_single, Outcome.ofExpr_arr, Outcome.apply,
      Outcome.holds, List.any_map]
    exact congrArg es.any (funext fun e ↦ (exprHolds_emptyReading e).symm)
  compare path hpath c v := by
    simp only [exprHolds_emptyReading, Outcome.ofExpr_single, Outcome.ofExpr_arr, List.map_cons,
      Outcome.ofExpr_reference]
    cases c <;> rfl
  inOne path hpath v := by
    simp only [exprHolds_emptyReading, Outcome.ofExpr_single, Outcome.ofExpr_arr, List.map_cons,
      Outcome.ofExpr_reference]
    rfl
  notInOne path hpath v := by
    simp only [exprHolds_emptyReading, Outcome.ofExpr_single, Outcome.ofExpr_arr, List.map_cons,
      Outcome.ofExpr_reference]
    rfl
  oneOf path hpath items := by
    simp only [exprHolds_emptyReading, Outcome.ofExpr_single, Outcome.ofExpr_arr, List.map_cons,
      Outcome.ofExpr_reference]
    rfl
  noneOf path hpath items := by
    simp only [exprHolds_emptyReading, Outcome.ofExpr_single, Outcome.ofExpr_arr, List.map_cons,
      Outcome.ofExpr_reference]
    rfl
  regex path hpath pattern := by
    simp only [exprHolds_emptyReading, Generator.regexExpr, Outcome.ofExpr_single]
    rfl
  present path hpath b := by
    simp only [exprHolds_emptyReading, Outcome.ofExpr_single, Outcome.ofExpr_arr, List.map_cons,
      Outcome.ofExpr_reference]
    cases b <;> rfl
  range path hpath low high := rfl
  index path hpath i hi b := by
    have hlt : ¬ i < ((0 : Nat) : Int) := by omega
    rw [decide_eq_false hlt]
    cases b <;> rfl
  longer path hpath n k d hn hk := by
    obtain ⟨s, hs⟩ : ∃ s, Outcome.ofExpr least (.ofDouble n) = s := ⟨_, rfl⟩
    have hlt : ¬ k < ((0 : Nat) : Int) * d := by simpa using hk
    rw [decide_eq_false hlt]
    simp only [exprHolds_emptyReading, Outcome.ofExpr_single, Outcome.ofExpr_arr, List.map_cons,
      List.map_nil, sizeOfArray, Outcome.apply, hs]
    rfl
  shorter path hpath n k d hn hk := by
    simp only [exprHolds_emptyReading, Outcome.ofExpr_single, Outcome.ofExpr_arr, List.map_cons,
      List.map_nil, sizeOfArray, ofExpr_ofDouble hn]
    simp [Outcome.apply, Outcome.holds]
  length_lt path := by decide
  isArray path hpath := by
    simp only [exprHolds_emptyReading, Outcome.ofExpr_single]
    rfl
  negated n hn e he := by
    have hfind : p.blocks.find? (·.1 == n.1) = some n := by
      obtain ⟨n', hn'⟩ : ∃ n', p.blocks.find? (·.1 == n.1) = some n' := by
        rw [← Option.isSome_iff_exists, List.find?_isSome]
        exact ⟨n, hn, beq_self_eq_true _⟩
      have hname : n'.1 = n.1 := by simpa using List.find?_some hn'
      rw [hn', List.inj_on_of_nodup_map hnames (List.mem_of_find?_eq_some hn') hn hname]
    rw [exprHolds_emptyReading]
    simp [emptyReading, emptyTest, hfind, he]
  written e e' h := by
    rw [exprHolds_emptyReading, exprHolds_emptyReading,
      Outcome.ofExpr_eq_of_writesOut hcomputed h]

private theorem ofExpr_computed {name : String} {e : Json} (he : g.computed? p name = some e) :
    Outcome.ofExpr .nothing e = .nothing := by
  unfold Generator.computed? at he
  split at he
  · simp only [Generator.listField?, Option.bind_eq_bind, Option.bind_eq_some_iff] at he
    obtain ⟨v, -, l, hl, he⟩ := he
    cases l with
    | quantifier k => cases he
    | filter =>
      obtain ⟨q, -, rfl⟩ := Option.map_eq_some_iff.mp he
      unfold ListQuery.filteredExpr ListQuery.filterExpr?
      cases q.elementPredicate? with
      | none =>
        rw [Option.map_none, Option.getD_none, ListQuery.input, arrayInput, Outcome.ofExpr_single]
        rfl
      | some e =>
        rw [Option.map_some, Option.getD_some, Outcome.ofExpr_single]
        rfl
    | aggregate a =>
      obtain ⟨q, hq, rfl⟩ := Option.map_eq_some_iff.mp he
      rw [ListQuery.aggregateExpr, Generator.op_of_variableQuery? hl hq, Outcome.ofExpr_single]
      cases a <;> rfl
  · cases he

/-- For every filter there is a reading for which the laws hold: that of a document without fields.
-/
theorem formLaws_empty (ctx : Context) (blocks : List Block) :
    (emptyReading .nothing ctx.generator (ctx.projection blocks)).FormLaws (fun _ ↦ 0)
      ctx.generator (ctx.projection blocks) :=
  formLaws_emptyReading Context.nodup_computedBlocks fun _ _ he ↦ ofExpr_computed he

end QueryReading
end FilterPipeline
