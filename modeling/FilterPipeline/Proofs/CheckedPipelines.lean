import FilterPipeline.Proofs.CanonicalValues
import FilterPipeline.Proofs.WellFormedValues

/-!
# Pipelines that the checker accepts

The checker stops at the first issue that it meets. Main statement: it accepts a pipeline exactly
when nothing is wrong with any of the stages, and with any object that stands at any depth in the
body of a match or a projection (`Issue.ofPipeline?_eq_none_iff`).
-/

namespace FilterPipeline

namespace Json

/-- A value stands somewhere in another one, itself included. -/
inductive IsWithin (w : Json) : Json → Prop
  | refl : IsWithin w w
  | item {item : Json} {items : List Json} (hitem : item ∈ items) (h : IsWithin w item) :
    IsWithin w (.arr items)
  | member {key : String} {v : Json} {members : Members} (hmember : (key, v) ∈ members)
    (h : IsWithin w v) : IsWithin w (.obj members)

/-- What the size of an array can be compared with: a whole number that is not negative, a
reference, or what is computed. -/
inductive IsSize : Json → Prop
  | count (n : Nat) : IsSize (.int n)
  | reference (path : String) : IsSize (.str ("$" ++ path))
  | computed (members : Members) : IsSize (.obj members)
  | list (items : List Json) : IsSize (.arr items)

/-- What two values can be compared in: a list has to have a number or a text among its items. -/
def IsComparable (v : Json) : Prop :=
  ∀ items, v = .arr items → ∃ item ∈ items, item.isNumber = true ∨ item.isString = true

/-- A member that an object within a query or a projection can have. -/
structure IsProperMember (key : String) (v : Json) : Prop where
  key_ne : key ≠ ""
  membership : key = "$in" ∨ key = "$nin" → ∃ items, v = .arr items
  size : key = "$size" → v.IsSize
  comparison : key = "$gt" ∨ key = "$gte" ∨ key = "$lt" ∨ key = "$lte" → v.IsComparable

/-- The objects within a value, at any depth, have members, and only such as they can have. -/
def IsProper (v : Json) : Prop :=
  ∀ members, IsWithin (.obj members) v → members ≠ [] ∧ ∀ m ∈ members, IsProperMember m.1 m.2

/-- A body that a stage of some name can have. -/
structure IsProperBody (name : String) (body : Json) : Prop where
  ne_null : body ≠ .null
  content : name = "$match" ∨ name = "$project" → (∃ members, body = .obj members) ∧ body.IsProper
  nonempty : name ∈ ["$group", "$sort", "$limit", "$skip", "$lookup", "$unwind", "$addFields"] →
    body ≠ .obj [] ∧ body ≠ .arr [] ∧ body ≠ .str ""

/-- An object with one member, the key of which names the stage. -/
def IsProperStage (stage : Json) : Prop :=
  ∃ name body, stage = .obj [(name, body)] ∧ IsProperBody name body

variable {v w : Json} {key path : String}

section Values

private theorem isWithin_arr_iff {items : List Json} :
    IsWithin w (.arr items) ↔ w = .arr items ∨ ∃ item ∈ items, IsWithin w item := by
  constructor
  · intro h
    cases h with
    | refl => exact Or.inl rfl
    | item hitem h => exact Or.inr ⟨_, hitem, h⟩
  · rintro (rfl | ⟨item, hitem, h⟩)
    · exact .refl
    · exact .item hitem h

private theorem isWithin_obj_iff {members : Members} :
    IsWithin w (.obj members) ↔ w = .obj members ∨ ∃ m ∈ members, IsWithin w m.2 := by
  constructor
  · intro h
    cases h with
    | refl => exact Or.inl rfl
    | member hmember h => exact Or.inr ⟨_, hmember, h⟩
  · rintro (rfl | ⟨m, hm, h⟩)
    · exact .refl
    · exact .member hm h

/-- The items of a proper list are proper. -/
theorem isProper_arr_iff {items : List Json} :
    (Json.arr items).IsProper ↔ ∀ item ∈ items, item.IsProper := by
  constructor
  · intro h item hitem members hwithin
    exact h members (.item hitem hwithin)
  · intro h members hwithin
    rcases isWithin_arr_iff.mp hwithin with heq | ⟨item, hitem, hwithin⟩
    · cases heq
    · exact h item hitem members hwithin

/-- The members of a proper object are proper, and so are their values. -/
theorem isProper_obj_iff {members : Members} : (Json.obj members).IsProper ↔
    members ≠ [] ∧ ∀ m ∈ members, IsProperMember m.1 m.2 ∧ m.2.IsProper := by
  constructor
  · intro h
    obtain ⟨hne, hmembers⟩ := h members .refl
    exact ⟨hne, fun m hm ↦ ⟨hmembers m hm, fun inner hinner ↦ h inner (.member hm hinner)⟩⟩
  · rintro ⟨hne, hmembers⟩ inner hwithin
    rcases isWithin_obj_iff.mp hwithin with heq | ⟨m, hm, hwithin⟩
    · cases heq
      exact ⟨hne, fun m hm ↦ (hmembers m hm).1⟩
    · exact (hmembers m hm).2 inner hwithin

/-- The checker admits what can be a size. -/
theorem isSize_iff : Issue.isSize v = true ↔ v.IsSize := by
  cases v with
  | null | bool _ | double _ =>
    constructor
    · intro h
      cases h
    · intro h
      cases h
  | int n =>
    rw [Issue.isSize, decide_eq_true_iff]
    constructor
    · intro h
      obtain ⟨k, rfl⟩ := Int.eq_ofNat_of_zero_le h
      exact .count k
    · intro h
      cases h with
      | count k => exact Int.natCast_nonneg k
  | str s =>
    rw [Issue.isSize, beq_iff_eq, List.head?_eq_some_iff]
    constructor
    · rintro ⟨path, hs⟩
      have hreference : s = "$" ++ String.ofList path := by
        rw [← String.toList_inj, hs]
        simp
      exact hreference ▸ .reference _
    · intro h
      cases h with
      | reference path => exact ⟨path.toList, String.toList_append⟩
  | arr items => exact iff_of_true rfl (.list items)
  | obj members => exact iff_of_true rfl (.computed members)

private theorem ofOperator?_membership (hkey : key = "$in" ∨ key = "$nin") :
    Issue.ofOperator? key v path = none ↔ ∃ items, v = .arr items := by
  have hbranch : (key == "$in" || key == "$nin") = true := by simpa using hkey
  unfold Issue.ofOperator?
  rw [if_pos hbranch]
  cases v with
  | arr items => exact iff_of_true rfl ⟨items, rfl⟩
  | null | bool _ | int _ | double _ | str _ | obj _ => simp [items?]

private theorem ofOperator?_size : Issue.ofOperator? "$size" v path = none ↔ v.IsSize := by
  rw [← isSize_iff]
  unfold Issue.ofOperator?
  rw [if_neg (by decide), if_pos (by decide)]
  cases Issue.isSize v with
  | true => exact iff_of_true rfl rfl
  | false => exact iff_of_false (Option.some_ne_none _) Bool.false_ne_true

private theorem ofOperator?_comparison
    (hkey : key = "$gt" ∨ key = "$gte" ∨ key = "$lt" ∨ key = "$lte") :
    Issue.ofOperator? key v path = none ↔ v.IsComparable := by
  have hbranches : (key == "$in" || key == "$nin") = false ∧ (key == "$size") = false ∧
      (key == "$gt" || key == "$gte" || key == "$lt" || key == "$lte") = true := by
    rcases hkey with rfl | rfl | rfl | rfl <;> decide
  obtain ⟨hmembership, hsize, hcomparison⟩ := hbranches
  simp only [Issue.ofOperator?, IsComparable, hmembership, hsize, hcomparison, Bool.false_eq_true,
    if_false, if_true]
  cases v with
  | arr items =>
    simp only [ite_eq_left_iff, reduceCtorEq, imp_false, Decidable.not_not, List.any_eq_true,
      Bool.or_eq_true, arr.injEq, forall_eq']
  | null | bool _ | int _ | double _ | str _ | obj _ => simp

/-- The checker has nothing against an operand exactly when the operator admits it. -/
theorem ofOperator?_eq_none_iff : Issue.ofOperator? key v path = none ↔
    (key = "$in" ∨ key = "$nin" → ∃ items, v = .arr items) ∧ (key = "$size" → v.IsSize) ∧
      (key = "$gt" ∨ key = "$gte" ∨ key = "$lt" ∨ key = "$lte" → v.IsComparable) := by
  by_cases hmembership : key = "$in" ∨ key = "$nin"
  · have hothers : key ≠ "$size" ∧
        ¬ (key = "$gt" ∨ key = "$gte" ∨ key = "$lt" ∨ key = "$lte") := by
      rcases hmembership with rfl | rfl <;> decide
    simp only [ofOperator?_membership hmembership, hmembership, hothers, true_imp_iff,
      false_imp_iff, and_true]
  · by_cases hsize : key = "$size"
    · subst hsize
      rw [ofOperator?_size]
      exact ⟨fun h ↦ ⟨fun hkey ↦ absurd hkey (by decide), fun _ ↦ h,
        fun hkey ↦ absurd hkey (by decide)⟩, fun h ↦ h.2.1 rfl⟩
    · by_cases hcomparison : key = "$gt" ∨ key = "$gte" ∨ key = "$lt" ∨ key = "$lte"
      · simp only [ofOperator?_comparison hcomparison, hmembership, hsize, hcomparison,
          true_imp_iff, false_imp_iff, true_and]
      · have hfree : key ∉ Issue.checkedKeys := by
          simp only [Issue.checkedKeys, List.mem_cons, List.not_mem_nil, or_false]
          rintro (h | h | h | h)
          · exact hmembership (Or.inl h)
          · exact hmembership (Or.inr h)
          · exact hsize h
          · exact hcomparison h
        simp only [Issue.ofOperator?_of_unchecked hfree, hmembership, hsize, hcomparison,
          false_imp_iff, and_self]

/-- A member of a well-formed object is a proper one with a well-formed value. -/
theorem isWellFormedMember_iff :
    IsWellFormedMember key v ↔ IsProperMember key v ∧ v.IsWellFormed := by
  constructor
  · rintro ⟨hkey, hoperand, hvalue⟩
    obtain ⟨hmembership, hsize, hcomparison⟩ := ofOperator?_eq_none_iff.mp hoperand
    exact ⟨⟨hkey, hmembership, hsize, hcomparison⟩, hvalue⟩
  · rintro ⟨⟨hkey, hmembership, hsize, hcomparison⟩, hvalue⟩
    exact ⟨hkey, ofOperator?_eq_none_iff.mpr ⟨hmembership, hsize, hcomparison⟩, hvalue⟩

/-- The checker finds no issue in a value exactly when it is proper. -/
theorem isWellFormed_iff_isProper : v.IsWellFormed ↔ v.IsProper := by
  induction v using Json.induction with
  | scalar v hflat =>
    cases v with
    | arr _ | obj _ => cases hflat
    | null | bool _ | int _ | double _ | str _ =>
      apply iff_of_true rfl
      intro members hwithin
      cases hwithin
  | arr items ih =>
    rw [isWellFormed_arr_iff, isProper_arr_iff]
    exact forall₂_congr ih
  | obj members ih =>
    rw [isWellFormed_obj_iff, isProper_obj_iff]
    apply and_congr_right'
    apply forall₂_congr
    intro m hm
    rw [isWellFormedMember_iff, ih m hm]

end Values

end Json

namespace Issue

section Stages

variable {stage body : Json} {name : String} {index : Nat}

private theorem ne_content_of_bodied :
    ∀ name ∈ bodiedStages, ¬ (name = "$match" ∨ name = "$project") := by
  decide

private theorem ofStage?_content (hname : name = "$match" ∨ name = "$project") :
    ofStage? index (.obj [(name, body)]) = none ↔
      (∃ members, body = .obj members) ∧ body.IsProper := by
  have hbranch : (name == "$match" || name == "$project") = true := by simpa using hname
  unfold ofStage?
  dsimp only
  rw [if_pos hbranch, ← Json.isWellFormed_iff_isProper]
  cases body with
  | obj members =>
    have hobject : ∃ inner, Json.obj members = .obj inner := ⟨members, rfl⟩
    cases members with
    | nil =>
      have hnil : ¬ (Json.obj []).IsWellFormed := fun h ↦ (Json.isWellFormed_obj_iff.mp h).1 rfl
      exact iff_of_false (Option.some_ne_none _) fun h ↦ hnil h.2
    | cons m members =>
      rw [and_iff_right hobject]
      exact ofValue?_eq_none_congr name "" _
  | null | bool _ | int _ | double _ | str _ | arr _ => simp

/-- A body that is not empty is neither null nor an object, a list or a text with nothing in it. -/
theorem isEmptyBody_eq_false_iff : isEmptyBody body = false ↔
    body ≠ .null ∧ body ≠ .obj [] ∧ body ≠ .arr [] ∧ body ≠ .str "" := by
  cases body with
  | null | bool _ | int _ | double _ | str _ | arr _ | obj _ => simp [isEmptyBody]

private theorem ofStage?_bodied (hname : name ∈ bodiedStages) :
    ofStage? index (.obj [(name, body)]) = none ↔
      body ≠ .null ∧ body ≠ .obj [] ∧ body ≠ .arr [] ∧ body ≠ .str "" := by
  have hbranch : (name == "$match" || name == "$project") = false := by
    simpa using ne_content_of_bodied name hname
  unfold ofStage?
  dsimp only
  rw [hbranch, if_neg Bool.false_ne_true, if_pos (List.contains_iff_mem.mpr hname),
    ← isEmptyBody_eq_false_iff]
  cases isEmptyBody body with
  | true => exact iff_of_false (Option.some_ne_none _) (Ne.symm Bool.false_ne_true)
  | false => exact iff_of_true rfl rfl

private theorem ofStage?_other (hcontent : ¬ (name = "$match" ∨ name = "$project"))
    (hbodied : name ∉ bodiedStages) :
    ofStage? index (.obj [(name, body)]) = none ↔ body ≠ .null := by
  have hbranch : (name == "$match" || name == "$project") = false := by simpa using hcontent
  unfold ofStage?
  dsimp only
  rw [hbranch, if_neg Bool.false_ne_true, if_neg (mt List.contains_iff_mem.mp hbodied)]
  cases body with
  | null => exact iff_of_false (Option.some_ne_none _) (absurd rfl)
  | bool _ | int _ | double _ | str _ | arr _ | obj _ => exact iff_of_true rfl Json.noConfusion

private theorem ofStage?_single :
    ofStage? index (.obj [(name, body)]) = none ↔ Json.IsProperBody name body := by
  by_cases hcontent : name = "$match" ∨ name = "$project"
  · have hbodied : name ∉ bodiedStages := fun h ↦ ne_content_of_bodied name h hcontent
    rw [ofStage?_content hcontent]
    constructor
    · rintro ⟨⟨members, rfl⟩, hproper⟩
      exact ⟨Json.noConfusion, fun _ ↦ ⟨⟨members, rfl⟩, hproper⟩, fun h ↦ absurd h hbodied⟩
    · intro h
      exact h.content hcontent
  · by_cases hbodied : name ∈ bodiedStages
    · rw [ofStage?_bodied hbodied]
      constructor
      · rintro ⟨hnull, hempty⟩
        exact ⟨hnull, fun h ↦ absurd h hcontent, fun _ ↦ hempty⟩
      · intro h
        exact ⟨h.ne_null, h.nonempty hbodied⟩
    · rw [ofStage?_other hcontent hbodied]
      constructor
      · intro hnull
        exact ⟨hnull, fun h ↦ absurd h hcontent, fun h ↦ absurd h hbodied⟩
      · exact Json.IsProperBody.ne_null

/-- The checker finds no issue in a stage exactly when it is proper, wherever it stands. -/
theorem ofStage?_eq_none_iff : ofStage? index stage = none ↔ stage.IsProperStage := by
  constructor
  · intro h
    cases stage with
    | null | bool _ | int _ | double _ | str _ | arr _ => cases h
    | obj members =>
      cases members with
      | nil => cases h
      | cons m rest =>
        cases rest with
        | nil => exact ⟨m.1, m.2, rfl, ofStage?_single.mp h⟩
        | cons m' rest => cases h
  · rintro ⟨name, body, rfl, hbody⟩
    exact ofStage?_single.mpr hbody

/-- It finds none in a list of stages exactly when all of them are proper. -/
theorem ofStages?_eq_none_iff {stages : List Json} :
    ofStages? index stages = none ↔ ∀ stage ∈ stages, stage.IsProperStage := by
  induction stages generalizing index with
  | nil => simp [ofStages?]
  | cons stage rest ih =>
    rw [ofStages?, Option.or_eq_none_iff, List.forall_mem_cons, ofStage?_eq_none_iff, ih]

end Stages

/-- The checker accepts a pipeline exactly when it is a list of stages, at least one, that are all
proper. -/
theorem ofPipeline?_eq_none_iff (p : Json) : ofPipeline? p = none ↔
    ∃ stages, p = .arr stages ∧ stages ≠ [] ∧ ∀ stage ∈ stages, stage.IsProperStage := by
  cases p with
  | arr stages =>
    cases stages with
    | nil => simp [ofPipeline?]
    | cons stage rest =>
      rw [ofPipeline?, ofStages?_eq_none_iff]
      · simp
      · exact List.cons_ne_nil _ _
  | null | bool _ | int _ | double _ | str _ | obj _ => simp [ofPipeline?]

end Issue

end FilterPipeline
