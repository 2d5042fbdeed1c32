import FilterPipeline.Compile.Pipeline
import FilterPipeline.Proofs.NumberTexts
import FilterPipeline.Proofs.References

/-!
# Where strings stand in a pipeline

Under `in` of `$map` and `cond` of `$filter` an expression is about one element of an array, which
it calls `$$this`. Which references make sense depends on whether they stand there. Main statements:
what the fragments of expressions hold, and in which places, is what their parts hold.
-/

namespace FilterPipeline

/-- A text begins with another one when that is the first part of it. -/
theorem beginsWith_iff {start s : String} :
    beginsWith start s = true ↔ ∃ rest, s = start ++ rest := by
  rw [beginsWith, Option.isSome_iff_exists]
  constructor
  · rintro ⟨cs, hcs⟩
    refine ⟨String.ofList cs, ?_⟩
    rw [← String.toList_inj, String.toList_append, String.toList_ofList]
    exact Text.afterStart?_eq_some_iff.mp hcs
  · rintro ⟨rest, rfl⟩
    exact ⟨rest.toList, Text.afterStart?_eq_some_iff.mpr String.toList_append⟩

/-- A text still begins with another one when something is put behind it. -/
theorem beginsWith_append {start s : String} (h : beginsWith start s = true) (rest : String) :
    beginsWith start (s ++ rest) = true := by
  obtain ⟨tail, rfl⟩ := beginsWith_iff.mp h
  exact beginsWith_iff.mpr ⟨tail ++ rest, String.append_assoc⟩

/-- A path of an element is referred to from the element at hand. -/
theorem beginsWith_this_reference {path : String} (h : beginsWith "$" path = false) :
    beginsWith "$$this" (FieldScope.element.reference path) = true := by
  rw [FieldScope.reference, if_neg (by simp [h])]
  split
  · next helement =>
    rw [isElementPath, Bool.or_eq_true, beq_iff_eq] at helement
    rcases helement with rfl | hthis
    · decide
    · obtain ⟨rest, rfl⟩ := beginsWith_iff.mp hthis
      exact beginsWith_iff.mpr ⟨"." ++ rest, by simp only [← String.append_assoc]; rfl⟩
  · exact beginsWith_iff.mpr ⟨"." ++ path, by simp only [← String.append_assoc]; rfl⟩

/-- Where a string stands. -/
structure Place where
  /-- Whether a single element is asked about there. -/
  inside : Bool
  /-- Whether the string is the pattern of a regular expression. -/
  pattern : Bool
deriving DecidableEq, Repr

/-- The place of the member `key` of the operand of an operator in a place. -/
def Place.member (place : Place) (operator key : String) : Place :=
  if operator = "$map" ∧ key = "in" ∨ operator = "$filter" ∧ key = "cond" then
    { place with inside := true }
  else if operator = "$regexMatch" ∧ key = "regex" ∨ key = "$regex" then
    { place with pattern := true }
  else place

namespace Json

mutual

/-- The strings in the operand of an operator, keys aside, each with its place. -/
def placed (operator : String) (place : Place) : Json → List (Place × String)
  | .str s => [(place, s)]
  | .arr items => placedItems place items
  | .obj members => placedMembers operator place members
  | _ => []

/-- The strings in several values, with their places. -/
def placedItems (place : Place) : List Json → List (Place × String)
  | [] => []
  | v :: rest => placed "" place v ++ placedItems place rest

/-- The strings in the values of members, with their places. -/
def placedMembers (operator : String) (place : Place) :
    List (String × Json) → List (Place × String)
  | [] => []
  | (key, v) :: rest =>
    placed key (place.member operator key) v ++ placedMembers operator place rest

end

mutual

/-- The strings with places are the strings of a value. -/
theorem map_snd_placed (operator : String) (place : Place) : (v : Json) →
    (v.placed operator place).map Prod.snd = v.strings
  | .null | .bool _ | .int _ | .double _ | .str _ => rfl
  | .arr items => map_snd_placedItems place items
  | .obj members => map_snd_placedMembers operator place members

/-- The strings with places are the strings of the items. -/
theorem map_snd_placedItems (place : Place) : (items : List Json) →
    (placedItems place items).map Prod.snd = itemStrings items
  | [] => rfl
  | v :: rest => by
    rw [placedItems, List.map_append, map_snd_placed "" place v, map_snd_placedItems place rest,
      itemStrings]

/-- The strings with places are the strings of the members. -/
theorem map_snd_placedMembers (operator : String) (place : Place) :
    (members : List (String × Json)) →
    (placedMembers operator place members).map Prod.snd = memberStrings members
  | [] => rfl
  | (key, v) :: rest => by
    rw [placedMembers, List.map_append, map_snd_placed key _ v,
      map_snd_placedMembers operator place rest, memberStrings]

end

example : placed "" ⟨false, false⟩ (single "$filter" (.obj
    [("cond", single "$gt" (.arr [.str "$$this.jd", .int 2])), ("input", .str "$prv")])) =
      [(⟨true, false⟩, "$$this.jd"), (⟨false, false⟩, "$prv")] := by
  decide

/-- An operator whose operand stands where the operator does, with all its members. -/
structure IsTransparent (key : String) : Prop where
  map : key ≠ "$map"
  filter : key ≠ "$filter"
  regexMatch : key ≠ "$regexMatch"
  regex : key ≠ "$regex"

/-- Being transparent is decided by comparing the key with those that are not. -/
instance (key : String) : Decidable (IsTransparent key) :=
  decidable_of_iff (key ≠ "$map" ∧ key ≠ "$filter" ∧ key ≠ "$regexMatch" ∧ key ≠ "$regex")
    ⟨fun ⟨h, h', h'', h'''⟩ ↦ ⟨h, h', h'', h'''⟩, fun ⟨h, h', h'', h'''⟩ ↦ ⟨h, h', h'', h'''⟩⟩

variable {key : String} {place : Place}

/-- A path is no operator. -/
theorem isTransparent_of_beginsWith (h : beginsWith "$" key = false) : IsTransparent key := by
  have hne : ∀ k, beginsWith "$" k = true → key ≠ k := by
    rintro k hk rfl
    rw [h] at hk
    cases hk
  exact ⟨hne _ (by decide), hne _ (by decide), hne _ (by decide), hne _ (by decide)⟩

/-- The operand of a transparent operator is placed like any value. -/
theorem IsTransparent.placed_eq (h : IsTransparent key) (v : Json) :
    v.placed key place = v.placed "" place := by
  cases v with
  | obj members =>
    simp only [placed]
    induction members with
    | nil => rfl
    | cons m rest ih =>
      have hmember : place.member key m.1 = place.member "" m.1 := by
        simp [Place.member, h.map, h.filter, h.regexMatch]
      simp only [placedMembers, ih, hmember]
  | null | bool _ | int _ | double _ | str _ | arr _ => rfl

private theorem IsTransparent.member_eq (h : IsTransparent key) : place.member "" key = place := by
  simp [Place.member, h.regex]

/-- All strings of an expression keep to a rule on what is allowed in which place, where the
expression stands within an element predicate or does not. -/
def Keeps (P : Place → String → Prop) (inside : Bool) (e : Json) : Prop :=
  ∀ x ∈ e.placed "" ⟨inside, false⟩, P x.1 x.2

end Json

/-- What is allowed in the places of a pipeline, at least: texts that begin with no dollar sign, the
pattern for the end of a text, and the element at hand where there is one. -/
structure IsPlaceRule (P : Place → String → Prop) : Prop where
  plain : ∀ place s, beginsWith "$" s = false → P place s
  dollar : ∀ inside, P ⟨inside, true⟩ "$"
  element : ∀ s, beginsWith "$$this" s = true → P ⟨true, false⟩ s

namespace Json

variable {P : Place → String → Prop} {inside : Bool} {key s : String} {e v input : Json}
  {items : List Json} {members : List (String × Json)}

/-- A value without dollar signs is allowed in every place. -/
theorem IsPlain.keeps (hP : IsPlaceRule P) (h : v.IsPlain) : v.Keeps P inside := by
  intro x hx
  refine hP.plain x.1 x.2 (h x.2 ?_)
  rw [← map_snd_placed "" ⟨inside, false⟩ v]
  exact List.mem_map_of_mem hx

/-- Truth values keep to every rule. -/
@[simp] theorem keeps_bool {b : Bool} : (Json.bool b).Keeps P inside := by
  simp [Keeps, placed]

/-- Whole numbers keep to every rule. -/
@[simp] theorem keeps_int {n : Int} : (Json.int n).Keeps P inside := by
  simp [Keeps, placed]

/-- Computed numbers keep to every rule. -/
@[simp] theorem keeps_ofDouble {x : Double} : (ofDouble x).Keeps P inside := by
  unfold ofDouble
  repeat' split
  all_goals simp [Keeps, placed]

/-- A string keeps to a rule where the rule allows it. -/
@[simp] theorem keeps_str_iff : (Json.str s).Keeps P inside ↔ P ⟨inside, false⟩ s := by
  simp [Keeps, placed]

/-- An empty list keeps to every rule. -/
@[simp] theorem keeps_nil : (Json.arr []).Keeps P inside := by
  simp [Keeps, placed, placedItems]

/-- A list keeps to a rule when its first item and the others do. -/
@[simp] theorem keeps_cons_iff :
    (Json.arr (e :: items)).Keeps P inside ↔
      e.Keeps P inside ∧ (Json.arr items).Keeps P inside := by
  simp only [Keeps, placed, placedItems, List.forall_mem_append]

/-- Items hold what each of them does. -/
theorem keeps_arr_iff : (Json.arr items).Keeps P inside ↔ ∀ e ∈ items, e.Keeps P inside := by
  induction items with
  | nil => simp
  | cons e items ih => rw [keeps_cons_iff, List.forall_mem_cons, ih]

/-- An empty object keeps to every rule. -/
@[simp] theorem keeps_obj_nil : (Json.obj []).Keeps P inside := by
  simp [Keeps, placed, placedMembers]

/-- A member with a transparent key holds what its value does. -/
theorem keeps_obj_cons_iff (h : IsTransparent key) :
    (Json.obj ((key, e) :: members)).Keeps P inside ↔
      e.Keeps P inside ∧ (Json.obj members).Keeps P inside := by
  simp only [Keeps, placed, placedMembers, h.member_eq, h.placed_eq, List.forall_mem_append]

/-- Members hold what each of them does by itself. -/
theorem keeps_obj_iff :
    (Json.obj members).Keeps P inside ↔ ∀ m ∈ members, (single m.1 m.2).Keeps P inside := by
  induction members with
  | nil => simp
  | cons m rest ih =>
    rw [List.forall_mem_cons, ← ih]
    simp only [Keeps, single, placed, placedMembers, List.append_nil, List.forall_mem_append]

/-- A transparent operator holds what its operand does. -/
theorem keeps_single_iff (h : IsTransparent key) :
    (single key e).Keeps P inside ↔ e.Keeps P inside := by
  rw [single, keeps_obj_cons_iff h, and_iff_left keeps_obj_nil]

/-- A pair of operands holds what both do. -/
theorem keeps_pair_iff (h : IsTransparent key) {a b : Json} :
    (single key (.arr [a, b])).Keeps P inside ↔ a.Keeps P inside ∧ b.Keeps P inside := by
  simp [keeps_single_iff h]

/-- What is mapped over an array is about single elements, and the array itself is not. -/
@[simp] theorem keeps_map_iff :
    (single "$map" (.obj [("in", e), ("input", input)])).Keeps P inside ↔
      e.Keeps P true ∧ input.Keeps P inside := by
  have hin : IsTransparent "in" := by decide
  have hinput : IsTransparent "input" := by decide
  simp [Keeps, single, placed, placedMembers, Place.member, hin.placed_eq, hinput.placed_eq, or_imp,
    forall_and]

/-- What an array is filtered by is about single elements, and the array itself is not. -/
@[simp] theorem keeps_filter_iff :
    (single "$filter" (.obj [("cond", e), ("input", input)])).Keeps P inside ↔
      e.Keeps P true ∧ input.Keeps P inside := by
  have hcond : IsTransparent "cond" := by decide
  have hinput : IsTransparent "input" := by decide
  simp [Keeps, single, placed, placedMembers, Place.member, hcond.placed_eq, hinput.placed_eq,
    or_imp, forall_and]

/-- A match with a regular expression holds its input, its options and its pattern. -/
theorem keeps_regexMatch_iff {options pattern : String} :
    (single "$regexMatch" (.obj [("input", input), ("options", .str options),
      ("regex", .str pattern)])).Keeps P inside ↔
      input.Keeps P inside ∧ P ⟨inside, false⟩ options ∧ P ⟨inside, true⟩ pattern := by
  have hinput : IsTransparent "input" := by decide
  simp [Keeps, single, placed, placedMembers, Place.member, hinput.placed_eq, or_imp, forall_and]

/-- A test with a regular expression holds its options and its pattern. -/
theorem keeps_regexTest_iff {options pattern : String} :
    (Json.obj [("$options", .str options), ("$regex", .str pattern)]).Keeps P inside ↔
      P ⟨inside, false⟩ options ∧ P ⟨inside, true⟩ pattern := by
  simp [Keeps, placed, placedMembers, Place.member]

end Json

namespace Fragment

open Json

variable {P : Place → String → Prop} {inside : Bool} {e : Json}

/-- A negation keeps to a rule when what it negates does. -/
@[simp] theorem keeps_negateExpr_iff : (negateExpr e).Keeps P inside ↔ e.Keeps P inside := by
  have hkey : IsTransparent "$not" := by decide
  simp [negateExpr, keeps_single_iff hkey]

/-- An array that may be missing keeps to a rule when its expression does. -/
@[simp] theorem keeps_arrayInput_iff : (arrayInput e).Keeps P inside ↔ e.Keeps P inside := by
  have hkey : IsTransparent "$ifNull" := by decide
  simp [arrayInput, keeps_single_iff hkey]

/-- The length of an array keeps to a rule when the expression of the array does. -/
@[simp] theorem keeps_sizeOfArray_iff : (sizeOfArray e).Keeps P inside ↔ e.Keeps P inside := by
  have hkey : IsTransparent "$size" := by decide
  simp [sizeOfArray, keeps_single_iff hkey]

/-- A test that an array is not empty keeps to a rule when the expression of the array does. -/
@[simp] theorem keeps_isNotEmpty_iff : (isNotEmpty e).Keeps P inside ↔ e.Keeps P inside := by
  have hsize : IsTransparent "$size" := by decide
  have hkey : IsTransparent "$gt" := by decide
  simp [isNotEmpty, keeps_single_iff hsize, keeps_single_iff hkey]

end Fragment
end FilterPipeline
