import FilterPipeline.Compile.Projection
import FilterPipeline.Proofs.Reachability

/-!
# Keys of a projection

What the members of an object are after some have been put in, which path leads to which, and which
paths a projection keeps: those that are asked for and have none of their ancestors asked for.
-/

namespace FilterPipeline

namespace Members

/-- The keys of members. -/
def keys (members : Members) : List String := members.map (·.1)

variable {members : Members} {k key : String} {v value : Json}

/-- A member is new or was there before. -/
theorem mem_of_mem_insert (h : (k, v) ∈ insert key value members) :
    (k, v) = (key, value) ∨ (k, v) ∈ members := by
  induction members with
  | nil => exact Or.inl (List.mem_singleton.mp h)
  | cons m rest ih =>
    obtain ⟨k', v'⟩ := m
    simp only [insert] at h
    split at h
    · exact List.mem_cons.mp h
    · split at h
      · rcases List.mem_cons.mp h with h | h
        · exact Or.inl h
        · exact Or.inr (List.mem_cons_of_mem _ h)
      · rcases List.mem_cons.mp h with h | h
        · exact Or.inr (h ▸ List.mem_cons_self)
        · exact (ih h).imp_right (List.mem_cons_of_mem _)

/-- Putting in a member adds its key. -/
theorem mem_keys_insert : k ∈ keys (insert key value members) ↔ k = key ∨ k ∈ keys members := by
  induction members with
  | nil => simp [insert, keys]
  | cons m rest ih =>
    obtain ⟨k', v'⟩ := m
    simp only [keys] at ih
    simp only [insert]
    split
    · simp [keys]
    · split
      · next h => simp [keys, h]
      · simp [keys, ih, or_left_comm]

/-- A key has the value that was put in for it last. -/
theorem get?_insert_self : (insert key value members).get? key = some value := by
  induction members with
  | nil => simp [insert, get?]
  | cons m rest ih =>
    obtain ⟨k', v'⟩ := m
    simp only [insert]
    split
    · simp [get?]
    · split
      · simp [get?]
      · next h =>
        have hne : (key == k') = false := by simpa using h
        simp only [get?, List.lookup_cons, hne]
        exact ih

/-- Putting in a member changes the value of no other key. -/
theorem get?_insert_of_ne (h : k ≠ key) : (insert key value members).get? k = members.get? k := by
  have hne : (k == key) = false := by simpa using h
  induction members with
  | nil => simp only [insert, get?, List.lookup_cons, hne]
  | cons m rest ih =>
    obtain ⟨k', v'⟩ := m
    simp only [insert]
    split
    · simp only [get?, List.lookup_cons, hne]
    · split
      · next hk =>
        subst hk
        simp only [get?, List.lookup_cons, hne]
      · simp only [get?, List.lookup_cons]
        split
        · rfl
        · exact ih

private theorem mem_keys_foldl {entries : List (String × Json)} :
    k ∈ keys (entries.foldl (fun members (key, value) ↦ insert key value members) members) ↔
      k ∈ keys members ∨ k ∈ entries.map (·.1) := by
  induction entries generalizing members with
  | nil => simp
  | cons e entries ih =>
    rw [List.foldl_cons, ih, mem_keys_insert, List.map_cons, List.mem_cons]
    tauto

private theorem mem_keys_ofList {entries : List (String × Json)} :
    k ∈ keys (ofList entries) ↔ k ∈ entries.map (·.1) := by
  rw [ofList, mem_keys_foldl]
  simp [keys]

/-- The members made of a list of entries are some of the entries. -/
theorem mem_of_mem_ofList {entries : List (String × Json)} (h : (k, v) ∈ ofList entries) :
    (k, v) ∈ entries := by
  refine List.foldlRecOn (motive := fun members ↦ (k, v) ∈ members → (k, v) ∈ entries) entries _
    (fun h ↦ by cases h) (fun members ih e he h ↦ ?_) h
  rcases mem_of_mem_insert h with h | h
  · exact h ▸ he
  · exact ih h

private theorem get?_foldl_of_notMem {entries : List (String × Json)}
    (h : k ∉ entries.map (·.1)) :
    (entries.foldl (fun members (key, value) ↦ insert key value members) members).get? k =
      members.get? k := by
  induction entries generalizing members with
  | nil => rfl
  | cons e entries ih =>
    rw [List.map_cons, List.mem_cons, not_or] at h
    rw [List.foldl_cons, ih h.2, get?_insert_of_ne h.1]

private theorem get?_foldl_insert {entries : List (String × Json)}
    (hkeys : (entries.map (·.1)).Nodup) (h : (k, v) ∈ entries) :
    (entries.foldl (fun members (key, value) ↦ insert key value members) members).get? k =
      some v := by
  induction entries generalizing members with
  | nil => cases h
  | cons e entries ih =>
    rw [List.map_cons, List.nodup_cons] at hkeys
    rw [List.foldl_cons]
    rcases List.mem_cons.mp h with h | h
    · subst h
      rw [get?_foldl_of_notMem hkeys.1]
      exact get?_insert_self
    · exact ih hkeys.2 h

/-- Where the keys of entries differ, each keeps its value. -/
theorem get?_ofList {entries : List (String × Json)} (hkeys : (entries.map (·.1)).Nodup)
    (h : (k, v) ∈ entries) : (ofList entries).get? k = some v :=
  get?_foldl_insert hkeys h

/-- Entries whose keys differ keep their values, whatever has been put in before. -/
theorem get?_ofList_append {before entries : List (String × Json)}
    (hkeys : (entries.map (·.1)).Nodup) (h : (k, v) ∈ entries) :
    (ofList (before ++ entries)).get? k = some v := by
  rw [ofList, List.foldl_append]
  exact get?_foldl_insert hkeys h

end Members

/-- The first path is what stands before some dot of the second. -/
def IsAncestor (a path : String) : Prop := ∃ rest, path = a ++ "." ++ rest

/-- The first path is the second or leads to it. -/
def LeadsTo (a path : String) : Prop := a = path ∨ IsAncestor a path

private theorem mem_ancestorsAfter_iff {before cs : List Char} {a : String} :
    a ∈ ancestorsAfter before cs ↔
      ∃ part rest, cs = part ++ '.' :: rest ∧ a.toList = before.reverse ++ part := by
  induction cs generalizing before with
  | nil => simp [ancestorsAfter]
  | cons c cs ih =>
    have hlater : a ∈ ancestorsAfter (c :: before) cs ↔ ∃ part rest,
        cs = part ++ '.' :: rest ∧ a.toList = before.reverse ++ c :: part := by
      rw [ih]
      simp
    simp only [ancestorsAfter]
    split
    · next hc =>
      subst hc
      rw [List.mem_cons, hlater]
      constructor
      · rintro (h | ⟨part, rest, h, ha⟩)
        · exact ⟨[], cs, rfl, by simp [h]⟩
        · exact ⟨'.' :: part, rest, by simp [h], ha⟩
      · rintro ⟨part, rest, h, ha⟩
        cases part with
        | nil => exact Or.inl (String.toList_inj.mp (by simpa using ha))
        | cons d part =>
          simp only [List.cons_append, List.cons.injEq] at h
          exact Or.inr ⟨part, rest, h.2, by rw [h.1]; exact ha⟩
    · next hc =>
      rw [hlater]
      constructor
      · rintro ⟨part, rest, h, ha⟩
        exact ⟨c :: part, rest, by simp [h], ha⟩
      · rintro ⟨part, rest, h, ha⟩
        cases part with
        | nil =>
          simp only [List.nil_append, List.cons.injEq] at h
          exact absurd h.1 hc
        | cons d part =>
          simp only [List.cons_append, List.cons.injEq] at h
          exact ⟨part, rest, h.2, by rw [h.1]; exact ha⟩

/-- The ancestors that are listed are the paths before a dot. -/
theorem mem_ancestors_iff {a path : String} : a ∈ ancestors path ↔ IsAncestor a path := by
  rw [ancestors, mem_ancestorsAfter_iff]
  constructor
  · rintro ⟨part, rest, h, ha⟩
    refine ⟨String.ofList rest, String.toList_inj.mp ?_⟩
    simp only [List.reverse_nil, List.nil_append] at ha
    simp [h, ha]
  · rintro ⟨rest, rfl⟩
    exact ⟨a.toList, rest.toList, by simp, by simp⟩

/-- An ancestor is shorter. -/
theorem IsAncestor.length_lt {a path : String} (h : IsAncestor a path) :
    a.length < path.length := by
  obtain ⟨rest, rfl⟩ := h
  simp only [String.length_append]
  have : ".".length = 1 := rfl
  omega

private theorem IsAncestor.trans {a b c : String} (h : IsAncestor a b) (h' : IsAncestor b c) :
    IsAncestor a c := by
  obtain ⟨rest, rfl⟩ := h
  obtain ⟨rest', rfl⟩ := h'
  exact ⟨rest ++ "." ++ rest', by simp only [String.append_assoc]⟩

/-- What leads to a path that leads on leads on, too. -/
theorem LeadsTo.trans {a b c : String} (h : LeadsTo a b) (h' : LeadsTo b c) : LeadsTo a c := by
  rcases h with rfl | h
  · exact h'
  · rcases h' with rfl | h'
    · exact Or.inr h
    · exact Or.inr (h.trans h')

/-- A path is asked for when it is, without blanks, one of those used or always kept. -/
def IsAskedFor (used always : List String) (path : String) : Prop :=
  ∃ s ∈ used ++ always, Text.trimmed? s = some path

namespace Generator

variable {used always : List String} {path : String}

/-- A path is kept when it is asked for and none of its ancestors is. -/
theorem mem_keptPaths_iff : path ∈ keptPaths used always ↔
    IsAskedFor used always path ∧ ∀ a, IsAncestor a path → ¬ IsAskedFor used always a := by
  have hpaths : ∀ p, p ∈ (used ++ always).filterMap Text.trimmed? ↔ IsAskedFor used always p :=
    fun p ↦ List.mem_filterMap
  simp only [keptPaths, List.mem_filter, List.mem_mergeSort, List.mem_eraseDups, sortedNames,
    hpaths, Bool.not_eq_true', List.any_eq_false, mem_ancestors_iff, List.contains_iff_mem]

/-- No path is kept twice. -/
theorem nodup_keptPaths : (keptPaths used always).Nodup := by
  apply List.Nodup.filter
  exact nodup_sortedNames

/-- A kept path leads to every path that is asked for: the topmost of its ancestors that is asked
for, or the path itself. -/
theorem exists_keptPath (h : IsAskedFor used always path) :
    ∃ a ∈ keptPaths used always, LeadsTo a path := by
  induction hn : path.length using Nat.strongRecOn generalizing path with
  | ind n ih =>
    by_cases hanc : ∃ a, IsAncestor a path ∧ IsAskedFor used always a
    · obtain ⟨a, ha, hasked⟩ := hanc
      obtain ⟨k, hk, hka⟩ := ih a.length (hn ▸ ha.length_lt) hasked rfl
      exact ⟨k, hk, hka.trans (Or.inr ha)⟩
    · refine ⟨path, mem_keptPaths_iff.mpr ⟨h, fun a ha hasked ↦ ?_⟩, Or.inl rfl⟩
      exact hanc ⟨a, ha, hasked⟩

/-- The keys of a projection are the kept paths, if anything is used, and the names of the list
variables and of the negated blocks that it computes. -/
theorem mem_projection_keys_iff {g : Generator} {usage : Usage} {key : String} :
    key ∈ (g.projection always usage).members.keys ↔
      (usage.isEmpty = false ∧ key ∈ keptPaths usage.baseFields always) ∨
        key ∈ (g.projection always usage).lists ∨
        key ∈ (g.projection always usage).blocks.map (·.1) := by
  unfold projection
  split
  · next h => simp [h, Members.keys]
  · next h =>
    simp only [Members.mem_keys_ofList, List.map_append, List.map_map, List.mem_append, or_assoc]
    simp [Function.comp_def, h]

/-- A used path without blanks has a key that leads to it. -/
theorem exists_key_of_baseField {g : Generator} {usage : Usage} (hp : path ∈ usage.baseFields)
    (ht : Text.trimmed? path = some path) :
    ∃ key ∈ (g.projection always usage).members.keys, LeadsTo key path := by
  have hused : usage.isEmpty = false := by
    cases hb : usage.baseFields with
    | nil => simp [hb] at hp
    | cons p rest => simp [Usage.isEmpty, hb]
  have hasked : IsAskedFor usage.baseFields always path :=
    ⟨path, List.mem_append_left _ hp, ht⟩
  obtain ⟨key, hkey, hleads⟩ := exists_keptPath hasked
  exact ⟨key, mem_projection_keys_iff.mpr (Or.inl ⟨hused, hkey⟩), hleads⟩

end Generator
end FilterPipeline
