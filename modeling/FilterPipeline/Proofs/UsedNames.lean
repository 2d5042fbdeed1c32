import FilterPipeline.Compile.Usage
import FilterPipeline.Proofs.Reachability

/-!
# What usage analysis finds

The list variables that a filter uses are those that its conditions name and those that a chain of
definitions leads to; the paths that it uses are those of its conditions and the arrays of those
list variables. Negated named blocks are computed under names that differ.
-/

namespace FilterPipeline

open Relation

namespace Resolver

variable (r : Resolver)

/-- The names that definitions are found under. -/
def listNames : List String := r.catalog.lists.map ListVariable.key

/-- A list variable is found under one of the names that definitions are found under. -/
theorem mem_listNames {name : String} {v : ListVariable} (h : r.catalog.list? name = some v) :
    name ∈ r.listNames :=
  List.mem_map.mpr ⟨v, Catalog.mem_of_list? h, Catalog.key_of_list? h⟩

/-- A list variable that a condition names is its field or one of the dependencies of that. -/
theorem isList_of_mem_conditionLists {r : Resolver} {c : Condition} {a : String}
    (h : a ∈ r.conditionLists c) :
    ∃ field ∈ c.fieldName?, a ∈ field :: r.dependents field ∧ (r.classify a).isList = true := by
  unfold conditionLists at h
  cases hf : c.fieldName? with
  | none => simp [hf] at h
  | some field =>
    refine ⟨field, rfl, ?_⟩
    cases hv : r.classify field with
    | base => simp [hf, hv] at h
    | list v l =>
      have ha : a = field := by simpa [hf, hv] using h
      rw [ha]
      exact ⟨List.mem_cons_self, by rw [hv]; rfl⟩
    | arithmetic v =>
      simp only [hf, hv, dependencies, mem_sortedNames] at h
      obtain ⟨hmem, hlist⟩ := List.mem_filter.mp h
      exact ⟨List.mem_cons_of_mem _ hmem, hlist⟩

end Resolver

/-- A text without dots names one field and leads to no field below another. -/
def HasNoDot (s : String) : Prop := '.' ∉ s.toList

/-- Whether a text has no dot is decided by its characters. -/
instance (s : String) : Decidable (HasNoDot s) := inferInstanceAs (Decidable ('.' ∉ s.toList))

/-- All characters of a text are ASCII letters, digits and underscores. -/
def IsWord (s : String) : Prop := ∀ c ∈ s.toList, c.isAlphanum = true ∨ c = '_'

/-- Whether a text is a word is decided by its characters. -/
instance (s : String) : Decidable (IsWord s) :=
  inferInstanceAs (Decidable (∀ c ∈ s.toList, c.isAlphanum = true ∨ c = '_'))

/-- A word has no dot. -/
theorem IsWord.hasNoDot {s : String} (h : IsWord s) : HasNoDot s := by
  intro hdot
  have := h '.' hdot
  revert this
  decide

/-- A word begins with no dollar sign. -/
theorem IsWord.beginsWith_dollar {s : String} (h : IsWord s) : beginsWith "$" s = false := by
  rw [Bool.eq_false_iff, ne_eq, beginsWith, Option.isSome_iff_exists]
  rintro ⟨rest, hrest⟩
  have hdollar := h '$' (by rw [Text.afterStart?_eq_some_iff.mp hrest]; exact List.mem_cons_self)
  revert hdollar
  decide

/-- What a name is sanitized to is a word. -/
theorem isWord_sanitizeName (name : String) : IsWord (sanitizeName name) := by
  intro c hc
  rw [sanitizeName, String.toList_ofList, List.mem_map] at hc
  obtain ⟨d, -, rfl⟩ := hc
  split
  · next h => exact Or.inl h
  · exact Or.inr rfl

private theorem IsWord.append {s t : String} (hs : IsWord s) (ht : IsWord t) : IsWord (s ++ t) := by
  intro c hc
  rw [String.toList_append, List.mem_append] at hc
  exact hc.elim (hs c) (ht c)

private theorem toList_toString (n : Nat) : (toString n).toList = Nat.toDigits 10 n := by
  rw [Nat.toString_eq_repr, Nat.toList_repr]

/-- A number is written as a word. -/
theorem isWord_toString (n : Nat) : IsWord (toString n) := by
  intro c hc
  rw [toList_toString] at hc
  have := Nat.isDigit_of_mem_toDigits (by decide) (by decide) hc
  exact Or.inl (by simp [Char.isAlphanum, this])

/-- Different numbers are written differently. -/
theorem toString_injective {m n : Nat} (h : toString m = toString n) : m = n := by
  have hd := congrArg (fun s ↦ Nat.ofDigitChars 10 s.toList 0) h
  simp only [toList_toString, Nat.ofDigitChars_ten_toDigits] at hd
  exact hd

namespace Usage

section Lists

variable {r : Resolver} {blocks : List Block}

/-- The list variables used are those that a chain of definitions leads to from one that a condition
names. -/
theorem mem_listVariables_iff {name : String} : name ∈ (ofBlocks r blocks).listVariables ↔
    ∃ a ∈ (blocks.flatMap Block.plainConditions).flatMap
        (fun c ↦ r.conditionLists c ++ r.elementLists c.operand),
      ReflTransGen (Refers r.definitionLists) a name := by
  rw [ofBlocks, mem_sortedNames]
  apply mem_reachable_iff r.listNames
  · intro a b hab
    cases hv : r.catalog.list? a with
    | none => simp [Refers, Resolver.definitionLists, hv] at hab
    | some v => exact r.mem_listNames hv
  · simp [Resolver.listNames]

/-- A list variable that a condition names is used. -/
theorem mem_listVariables_of_condition {c : Condition} {name : String}
    (hc : c ∈ blocks.flatMap Block.plainConditions)
    (hn : name ∈ r.conditionLists c ++ r.elementLists c.operand) :
    name ∈ (ofBlocks r blocks).listVariables :=
  mem_listVariables_iff.mpr ⟨name, List.mem_flatMap.mpr ⟨c, hc, hn⟩, .refl⟩

/-- A list variable that the definition of a used one names is used. -/
theorem mem_listVariables_of_definition {a b : String} (ha : a ∈ (ofBlocks r blocks).listVariables)
    (hb : b ∈ r.definitionLists a) : b ∈ (ofBlocks r blocks).listVariables := by
  obtain ⟨s, hs, hsa⟩ := mem_listVariables_iff.mp ha
  exact mem_listVariables_iff.mpr ⟨s, hs, hsa.tail hb⟩

/-- A path that a condition is about, or whose elements it is about, is used. -/
theorem mem_baseFields_of_condition {c : Condition} {path : String}
    (hc : c ∈ blocks.flatMap Block.plainConditions)
    (hp : path ∈ r.conditionPaths c ++ (c.operand.list?.bind ListCondition.arrayPath?).toList) :
    path ∈ (ofBlocks r blocks).baseFields := by
  rw [ofBlocks, mem_sortedNames]
  exact List.mem_append_left _ (List.mem_flatMap.mpr ⟨c, hc, hp⟩)

/-- The array of a used list variable is used. -/
theorem mem_baseFields_of_list {name path : String}
    (hn : name ∈ (ofBlocks r blocks).listVariables) (hp : path ∈ r.definitionArrays name) :
    path ∈ (ofBlocks r blocks).baseFields := by
  rw [ofBlocks, mem_sortedNames] at hn ⊢
  exact List.mem_append_right _ (List.mem_flatMap.mpr ⟨name, hn, hp⟩)

end Lists

section Blocks

private theorem candidate_add_two (name id : String) (n : Nat) :
    candidate name id (n + 2) = name ++ "_" ++ sanitizeName id ++ "_" ++ toString (n + 2) := rfl

/-- The names that are tried for a block are words. -/
theorem isWord_candidate {name : String} (h : IsWord name) (id : String) (n : Nat) :
    IsWord (candidate name id n) := by
  have hbar : IsWord "_" := fun c hc ↦ Or.inr (List.mem_singleton.mp hc)
  have hid := (h.append hbar).append (isWord_sanitizeName id)
  match n with
  | 0 => exact h
  | 1 => exact hid
  | n + 2 =>
    rw [candidate_add_two]
    exact (hid.append hbar).append (isWord_toString _)

private theorem exists_candidate_eq (name id : String) (n : Nat) :
    ∃ rest, candidate name id n = name ++ rest := by
  match n with
  | 0 => exact ⟨"", String.append_empty.symm⟩
  | 1 => exact ⟨"_" ++ sanitizeName id, String.append_assoc⟩
  | n + 2 =>
    rw [candidate_add_two]
    exact ⟨"_" ++ sanitizeName id ++ "_" ++ toString (n + 2), by simp only [String.append_assoc]⟩

private theorem candidate_injective (name id : String) :
    Function.Injective (candidate name id) := by
  have h0 : (candidate name id 0).length = name.length := rfl
  have h1 : (candidate name id 1).length = name.length + 1 + (sanitizeName id).length := by
    simp only [candidate, String.length_append]
    rfl
  have h2 : ∀ n, (candidate name id (n + 2)).length =
      name.length + 1 + (sanitizeName id).length + 1 + (toString (n + 2)).length := by
    intro n
    simp only [candidate_add_two, String.length_append]
    rfl
  intro m n h
  have hlength := congrArg String.length h
  match m, n with
  | 0, 0 => rfl
  | 1, 1 => rfl
  | 0, 1 => omega
  | 1, 0 => omega
  | 0, n + 2 =>
    rw [h0, h2] at hlength
    omega
  | m + 2, 0 =>
    rw [h0, h2] at hlength
    omega
  | 1, n + 2 =>
    rw [h1, h2] at hlength
    omega
  | m + 2, 1 =>
    rw [h1, h2] at hlength
    omega
  | m + 2, n + 2 =>
    rw [candidate_add_two, candidate_add_two, String.append_right_inj] at h
    exact toString_injective h

/-- A free name is one of those tried, and no taken one: more are tried than are taken. -/
theorem freeName_spec (taken : List String) (name id : String) :
    (∃ n, freeName taken name id = candidate name id n) ∧ freeName taken name id ∉ taken := by
  unfold freeName
  cases hf : ((List.range (taken.length + 1)).map (candidate name id)).find?
      (!taken.contains ·) with
  | some free =>
    obtain ⟨n, -, hn⟩ := List.mem_map.mp (List.mem_of_find?_eq_some hf)
    refine ⟨⟨n, hn.symm⟩, ?_⟩
    simpa using List.find?_some hf
  | none =>
    rw [List.find?_eq_none] at hf
    have hsub : (List.range (taken.length + 1)).map (candidate name id) ⊆ taken := by
      intro x hx
      simpa using hf x hx
    have hnodup : ((List.range (taken.length + 1)).map (candidate name id)).Nodup :=
      List.nodup_range.map (candidate_injective name id)
    have hle := hnodup.length_le_of_subset hsub
    rw [List.length_map, List.length_range] at hle
    omega

/-- The name that a named block asks for is a word, and not the empty one. -/
theorem isWord_materializedName {b : Block} {name : String} (h : b.materializedName? = some name) :
    IsWord name ∧ name ≠ "" := by
  unfold Block.materializedName? at h
  split at h
  · next hnamed =>
    obtain ⟨s, hs, rfl⟩ := Option.map_eq_some_iff.mp h
    refine ⟨isWord_sanitizeName s, fun hempty ↦ ?_⟩
    have hnil : s.toList = [] := by simpa [sanitizeName] using hempty
    simp [Block.isNamed, hs, hnil, Text.allBlank] at hnamed
  · cases h

/-- Negated named blocks are computed under names without dots that differ from each other. -/
structure WellNamed (blocks : List (String × Block)) : Prop where
  nodup : (blocks.map (·.1)).Nodup
  noDot : ∀ name ∈ blocks.map (·.1), HasNoDot name

private theorem WellNamed.register {blocks : List (String × Block)} (h : WellNamed blocks)
    (b : Block) :
    WellNamed (register blocks b) := by
  unfold Usage.register
  split
  · exact h
  · next name hname =>
    split
    · exact h
    · obtain ⟨⟨n, hn⟩, hfree⟩ := freeName_spec (blocks.map (·.1)) name b.id
      constructor
      · rw [List.map_append, List.map_singleton]
        exact h.nodup.append (List.nodup_singleton _) (by simpa using hfree)
      · intro x hx
        rw [List.map_append, List.mem_append, List.map_singleton, List.mem_singleton] at hx
        rcases hx with hx | hx
        · exact h.noDot x hx
        · rw [hx, hn]
          exact (isWord_candidate (isWord_materializedName hname).1 b.id n).hasNoDot

/-- What holds of no blocks, and is kept when one of the outermost negated named blocks of a filter
is registered, holds of those that it uses. -/
theorem negatedBlocks_induction {motive : List (String × Block) → Prop} (r : Resolver)
    (blocks : List Block) (nil : motive [])
    (register : ∀ done, motive done → ∀ b ∈ blocks.flatMap Block.negatedBlocks,
      motive (Usage.register done b)) :
    motive (ofBlocks r blocks).negatedBlocks :=
  List.foldlRecOn _ _ nil register

/-- The names under which the negated blocks of a filter are computed are kept apart. -/
theorem wellNamed_negatedBlocks (r : Resolver) (blocks : List Block) :
    WellNamed (ofBlocks r blocks).negatedBlocks :=
  negatedBlocks_induction r blocks ⟨List.nodup_nil, fun name hn ↦ by cases hn⟩
    fun _ h b _ ↦ h.register b

/-- What is registered has been before, or is the block under a name made for it. -/
theorem mem_of_mem_register {blocks : List (String × Block)} {b : Block}
    {p : String × Block} (hp : p ∈ Usage.register blocks b) : p ∈ blocks ∨ (p.2 = b ∧
      ∃ name n, b.materializedName? = some name ∧ p.1 = candidate name b.id n) := by
  unfold Usage.register at hp
  split at hp
  · exact Or.inl hp
  · next name hname =>
    split at hp
    · exact Or.inl hp
    · rcases List.mem_append.mp hp with h | h
      · exact Or.inl h
      · obtain ⟨n, hn⟩ := (freeName_spec (blocks.map (·.1)) name b.id).1
        rw [List.mem_singleton.mp h]
        exact Or.inr ⟨rfl, name, n, hname, hn⟩

/-- The negated named blocks of a filter are found among its outermost ones. -/
theorem mem_negatedBlocks {r : Resolver} {blocks : List Block} {p : String × Block}
    (hp : p ∈ (ofBlocks r blocks).negatedBlocks) : p.2 ∈ blocks.flatMap Block.negatedBlocks := by
  refine negatedBlocks_induction (motive := fun done ↦
    ∀ p ∈ done, p.2 ∈ blocks.flatMap Block.negatedBlocks) r blocks (by simp) ?_ p hp
  intro done ih b hb p hp
  rcases mem_of_mem_register hp with h | ⟨h, -⟩
  · exact ih p h
  · rw [h]
    exact hb

/-- Negated named blocks are computed under words, and never under the empty one. -/
theorem isWord_of_mem_negatedBlocks {r : Resolver} {blocks : List Block} {p : String × Block}
    (hp : p ∈ (ofBlocks r blocks).negatedBlocks) : IsWord p.1 ∧ p.1 ≠ "" := by
  refine negatedBlocks_induction (motive := fun done ↦ ∀ p ∈ done, IsWord p.1 ∧ p.1 ≠ "") r blocks
    (by simp) ?_ p hp
  intro done ih b _ p hp
  rcases mem_of_mem_register hp with h | ⟨-, name, n, hname, hn⟩
  · exact ih p h
  · obtain ⟨hword, hne⟩ := isWord_materializedName hname
    rw [hn]
    refine ⟨isWord_candidate hword b.id n, fun hempty ↦ hne ?_⟩
    obtain ⟨rest, hrest⟩ := exists_candidate_eq name b.id n
    rw [hrest] at hempty
    exact (String.append_eq_empty_iff.mp hempty).1

end Blocks

end Usage

end FilterPipeline
