import FilterPipeline.Json.Record
import FilterPipeline.Proofs.ProjectionKeys
import Mathlib.Data.String.Basic

/-!
# Canonical JSON values

In a canonical value the keys of every object increase. Where no object of a value has a key twice,
bringing it into that form only puts members into another order.
-/

namespace FilterPipeline

namespace Members

variable {members : Members} {key : String} {value : Json}

/-- Members whose keys increase. -/
def IsSorted (members : Members) : Prop := members.Pairwise fun m n ↦ m.1 < n.1

private theorem insert_perm (h : key ∉ keys members) :
    (insert key value members).Perm ((key, value) :: members) := by
  induction members with
  | nil => exact List.Perm.refl _
  | cons m rest ih =>
    obtain ⟨k, v⟩ := m
    rw [keys, List.map_cons, List.mem_cons, not_or] at h
    simp only [insert]
    split
    · exact List.Perm.refl _
    · rw [if_neg h.1]
      exact ((ih h.2).cons _).trans (List.Perm.swap _ _ _)

private theorem IsSorted.insert (h : members.IsSorted) : (insert key value members).IsSorted := by
  induction members with
  | nil => exact List.pairwise_singleton _ _
  | cons m rest ih =>
    obtain ⟨k, v⟩ := m
    obtain ⟨hfirst, hrest⟩ := List.pairwise_cons.mp h
    simp only [Members.insert]
    split
    · next hlt =>
      exact List.pairwise_cons.mpr ⟨List.forall_mem_cons.mpr
        ⟨hlt, fun n hn ↦ lt_trans hlt (hfirst n hn)⟩, h⟩
    · split
      · next heq => exact List.pairwise_cons.mpr ⟨fun n hn ↦ heq ▸ hfirst n hn, hrest⟩
      · next hnlt hne =>
        refine List.pairwise_cons.mpr ⟨fun n hn ↦ ?_, ih hrest⟩
        rcases mem_of_mem_insert (k := n.1) (v := n.2) hn with heq | hn
        · obtain ⟨hkey, -⟩ := Prod.mk.inj heq
          rw [hkey]
          exact lt_of_le_of_ne (not_lt.mp hnlt) (Ne.symm hne)
        · exact hfirst n hn

private theorem insert_last (h : ∀ m ∈ members, m.1 < key) :
    insert key value members = members ++ [(key, value)] := by
  induction members with
  | nil => rfl
  | cons m rest ih =>
    obtain ⟨k, v⟩ := m
    obtain ⟨hlt, hrest⟩ := List.forall_mem_cons.mp h
    rw [insert, if_neg (not_lt.mpr hlt.le), if_neg hlt.ne', ih hrest, List.cons_append]

/-- The members made of a list of entries are in the order of their keys. -/
theorem isSorted_ofList (entries : List (String × Json)) : (ofList entries).IsSorted :=
  List.foldlRecOn (motive := IsSorted) entries _ List.Pairwise.nil fun _ h _ _ ↦ h.insert

/-- Entries with distinct keys are only put into order. -/
theorem ofList_perm (entries : List (String × Json)) (h : (entries.map (·.1)).Nodup) :
    (ofList entries).Perm entries := by
  have hfold : ∀ (entries before : List (String × Json)),
      ((before ++ entries).map (·.1)).Nodup → (entries.foldl (fun members e ↦
        insert e.1 e.2 members) before).Perm (before ++ entries) := by
    intro entries
    induction entries with
    | nil => exact fun before _ ↦ by rw [List.append_nil]; rfl
    | cons e rest ih =>
      intro before hnodup
      have hperm : (insert e.1 e.2 before ++ rest).Perm (before ++ e :: rest) := by
        refine ((insert_perm ?_).append_right rest).trans List.perm_middle.symm
        rw [List.map_append, List.nodup_append] at hnodup
        exact fun hmem ↦ hnodup.2.2 _ hmem _ List.mem_cons_self rfl
      exact (ih _ ((hperm.map _).nodup_iff.mpr hnodup)).trans hperm
  exact hfold entries [] h

private theorem IsSorted.ofList_eq {entries : List (String × Json)} (h : IsSorted entries) :
    ofList entries = entries := by
  have hfold : ∀ (entries before : List (String × Json)), IsSorted (before ++ entries) →
      entries.foldl (fun members e ↦ Members.insert e.1 e.2 members) before =
        before ++ entries := by
    intro entries
    induction entries with
    | nil => exact fun before _ ↦ (List.append_nil before).symm
    | cons e rest ih =>
      intro before hsorted
      obtain ⟨k, v⟩ := e
      have hlast := (List.pairwise_append.mp hsorted).2.2
      have hinsert : Members.insert k v before = before ++ [(k, v)] :=
        insert_last fun m hm ↦ hlast m hm _ List.mem_cons_self
      simp only [List.foldl_cons, hinsert]
      rw [ih _ (by rwa [List.append_assoc]), List.append_assoc]
      rfl
  exact hfold entries [] h

end Members

namespace Json

/-- Whether a value is neither a list nor an object. -/
def isFlat : Json → Bool
  | .arr _ | .obj _ => false
  | _ => true

/-- What holds of scalars, and of lists and objects when it holds of their parts, holds of all
values. -/
theorem induction {motive : Json → Prop} (scalar : ∀ v, v.isFlat = true → motive v)
    (arr : ∀ items, (∀ v ∈ items, motive v) → motive (.arr items))
    (obj : ∀ members : Members, (∀ m ∈ members, motive m.2) → motive (.obj members))
    (v : Json) : motive v :=
  @Json.rec motive (fun items ↦ ∀ v ∈ items, motive v) (fun members ↦ ∀ m ∈ members, motive m.2)
    (fun m ↦ motive m.2) (scalar _ rfl) (fun _ ↦ scalar _ rfl) (fun _ ↦ scalar _ rfl)
    (fun _ ↦ scalar _ rfl) (fun _ ↦ scalar _ rfl) arr obj (List.forall_mem_nil _)
    (fun _ _ hv hrest ↦ List.forall_mem_cons.mpr ⟨hv, hrest⟩) (List.forall_mem_nil _)
    (fun _ _ hm hrest ↦ List.forall_mem_cons.mpr ⟨hm, hrest⟩) (fun _ _ hv ↦ hv) v

section Fold

variable {α : Type} {meaning : Layer α → α}

/-- A value that is neither a list nor an object means what its scalar does. -/
theorem fold_flat {v : Json} (h : v.isFlat = true) : v.fold meaning = meaning (.scalar v) := by
  cases v <;> first | rfl | cases h

/-- A list means what its items mean together. -/
theorem fold_arr (items : List Json) :
    (arr items).fold meaning = meaning (.items (items.map (fold meaning))) := by
  rw [fold]
  congr 2
  induction items with
  | nil => rfl
  | cons v rest ih => rw [foldItems, ih, List.map_cons]

/-- An object means what its members mean together. -/
theorem fold_obj (members : Members) : (obj members).fold meaning =
    meaning (.members (members.map fun m ↦ (m.1, m.2.fold meaning))) := by
  rw [fold]
  congr 2
  induction members with
  | nil => rfl
  | cons m rest ih => rw [foldMembers, ih, List.map_cons]

end Fold

/-- Whether no object in a value has a key twice. -/
def distinctKeys (v : Json) : Bool :=
  v.fold fun
    | .scalar _ => true
    | .items parts => parts.all id
    | .members parts => decide (parts.map (·.1)).Nodup && parts.all (·.2)

/-- The numbers, strings and words in a value. -/
def scalars (v : Json) : List Json :=
  v.fold fun
    | .scalar v => [v]
    | .items parts => parts.flatten
    | .members parts => (parts.map (·.2)).flatten

/-- A value all of whose numbers have a property. -/
def AllNumbers (P : Json → Prop) (v : Json) : Prop := ∀ s ∈ v.scalars, s.isNumber = true → P s

variable {items : List Json} {members : Members} {v : Json} {P : Json → Prop}

/-- The keys in a list are distinct when they are in each of its items. -/
theorem distinctKeys_arr_iff :
    (arr items).distinctKeys = true ↔ ∀ v ∈ items, v.distinctKeys = true := by
  rw [distinctKeys, fold_arr, List.all_eq_true]
  exact List.forall_mem_map

/-- The keys in an object are distinct when its own are and those in each of its members. -/
theorem distinctKeys_obj_iff : (obj members).distinctKeys = true ↔
    (members.map (·.1)).Nodup ∧ ∀ m ∈ members, m.2.distinctKeys = true := by
  rw [distinctKeys, fold_obj, Bool.and_eq_true, decide_eq_true_eq, List.all_eq_true, List.map_map]
  exact and_congr Iff.rfl List.forall_mem_map

/-- A value that is neither a list nor an object is its own only scalar. -/
theorem scalars_flat (h : v.isFlat = true) : v.scalars = [v] := fold_flat h

/-- The scalars of a list are those of its items. -/
theorem mem_scalars_arr {s : Json} : s ∈ (arr items).scalars ↔ ∃ v ∈ items, s ∈ v.scalars := by
  have hscalars : (arr items).scalars = (items.map scalars).flatten := fold_arr items
  rw [hscalars, ← List.flatMap_def, List.mem_flatMap]

/-- The scalars of an object are those of its members. -/
theorem mem_scalars_obj {s : Json} :
    s ∈ (obj members).scalars ↔ ∃ m ∈ members, s ∈ m.2.scalars := by
  have hscalars : (obj members).scalars =
      ((members.map fun m ↦ (m.1, m.2.scalars)).map (·.2)).flatten := fold_obj members
  rw [hscalars, List.map_map, ← List.flatMap_def, List.mem_flatMap]
  rfl

/-- A scalar that is no number has no numbers in it. -/
theorem allNumbers_flat (h : v.isFlat = true) (hv : v.isNumber = false) : v.AllNumbers P := by
  intro s hs hnumber
  rw [scalars_flat h, List.mem_singleton] at hs
  rw [hs, hv] at hnumber
  cases hnumber

/-- All numbers of a list are of a kind when those of each item are. -/
theorem allNumbers_arr_iff : (arr items).AllNumbers P ↔ ∀ v ∈ items, v.AllNumbers P := by
  simp only [AllNumbers, mem_scalars_arr]
  exact ⟨fun h v hv s hs ↦ h s ⟨v, hv, hs⟩, fun h s ⟨v, hv, hs⟩ ↦ h v hv s hs⟩

/-- All numbers of an object are of a kind when those of each member are. -/
theorem allNumbers_obj_iff : (obj members).AllNumbers P ↔ ∀ m ∈ members, m.2.AllNumbers P := by
  simp only [AllNumbers, mem_scalars_obj]
  exact ⟨fun h m hm s hs ↦ h s ⟨m, hm, hs⟩, fun h s ⟨m, hm, hs⟩ ↦ h m hm s hs⟩

/-- A value that is neither a list nor an object is in canonical form. -/
theorem canonical_flat (h : v.isFlat = true) : v.canonical = v := by
  cases v <;> first | rfl | cases h

/-- The canonical form of a list has the canonical forms of its items. -/
theorem canonical_arr : (arr items).canonical = .arr (items.map canonical) := by
  rw [canonical]
  congr 1
  induction items with
  | nil => rfl
  | cons v rest ih => rw [canonicalItems, ih, List.map_cons]

/-- The canonical form of an object has the canonical forms of its members, by key. -/
theorem canonical_obj : (obj members).canonical =
    .obj (Members.ofList (members.map fun m ↦ (m.1, m.2.canonical))) := by
  rw [canonical]
  congr 2
  induction members with
  | nil => rfl
  | cons m rest ih => rw [canonicalMembers, ih, List.map_cons]

/-- A canonical value stays as it is. -/
theorem canonical_canonical (v : Json) : v.canonical.canonical = v.canonical := by
  induction v using induction with
  | scalar v h => rw [canonical_flat h, canonical_flat h]
  | arr items ih =>
    rw [canonical_arr, canonical_arr, List.map_map]
    exact congrArg arr (List.map_congr_left ih)
  | obj members ih =>
    rw [canonical_obj, canonical_obj]
    have hsame : ((Members.ofList (members.map fun m ↦ (m.1, m.2.canonical))).map
        fun m ↦ (m.1, m.2.canonical)) =
          Members.ofList (members.map fun m ↦ (m.1, m.2.canonical)) := by
      refine List.map_congr_left (g := id) (fun m hm ↦ ?_) |>.trans (List.map_id _)
      obtain ⟨k, v⟩ := m
      obtain ⟨⟨k', v'⟩, hm', heq⟩ := List.mem_map.mp (Members.mem_of_mem_ofList hm)
      obtain ⟨rfl, rfl⟩ := Prod.mk.inj heq
      exact congrArg (Prod.mk k') (ih _ hm')
    rw [hsame, (Members.isSorted_ofList _).ofList_eq]

/-- A canonical value has no numbers but those of the value. -/
theorem AllNumbers.canonical (h : v.AllNumbers P) : v.canonical.AllNumbers P := by
  induction v using induction with
  | scalar v hflat => rwa [canonical_flat hflat]
  | arr items ih =>
    rw [canonical_arr, allNumbers_arr_iff]
    exact List.forall_mem_map.mpr fun v hv ↦ ih v hv (allNumbers_arr_iff.mp h v hv)
  | obj members ih =>
    rw [canonical_obj, allNumbers_obj_iff]
    intro m hm
    obtain ⟨n, hn, heq⟩ := List.mem_map.mp (Members.mem_of_mem_ofList hm)
    rw [← (Prod.mk.inj heq).2]
    exact ih n hn (allNumbers_obj_iff.mp h n hn)

end Json
end FilterPipeline
