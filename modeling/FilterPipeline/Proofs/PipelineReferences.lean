import FilterPipeline.Compile.Compiler
import FilterPipeline.Proofs.CanonicalValues
import FilterPipeline.Proofs.QueryTruth
import FilterPipeline.Proofs.References

/-!
# What a pipeline refers to

An aggregation expression takes every string that begins with a dollar sign for a reference to a
field or a variable, wherever the string comes from; under `$literal` alone it would stay a string.
A query takes the keys of its tests for paths, and no operand of a test for anything but a value.
Main statements: the match refers to what the queries of its roots refer to, and entries that are
put into a projection last refer to what they would by themselves.
-/

namespace FilterPipeline

namespace Json

/-- What an aggregation expression refers to: every string in it that begins with a dollar sign, but
those under `$literal`. -/
def references (e : Json) : List String :=
  e.fold fun
    | .scalar (.str s) => if beginsWith "$" s then [s] else []
    | .scalar _ => []
    | .items parts => parts.flatten
    | .members parts => parts.flatMap fun (key, found) ↦ if key = "$literal" then [] else found

mutual

/-- What a query refers to: the paths that it tests, each with a dollar sign in front, and what
aggregation expressions in it refer to. -/
def queryReferences : Json → List String
  | .obj members => testReferences members
  | _ => []

/-- What the members of a query refer to. -/
def testReferences : List (String × Json) → List String
  | [] => []
  | (key, v) :: rest =>
    (if key = "$expr" then v.references
    else if key = "$and" ∨ key = "$or" ∨ key = "$nor" then branchReferences v
    else ["$" ++ key]) ++ testReferences rest

/-- What the operand of a combination of queries refers to. -/
def branchReferences : Json → List String
  | .arr queries => branchesReferences queries
  | _ => []

/-- What several queries refer to. -/
def branchesReferences : List Json → List String
  | [] => []
  | q :: rest => queryReferences q ++ branchesReferences rest

end

end Json

/-- What a member of a projection refers to: a kept path to itself, and a computed field to whatever
its expression does. -/
def projectedReferences : String × Json → List String
  | (path, .int _) => ["$" ++ path]
  | (_, e) => e.references

/-- What the stages of a pipeline refer to. -/
def Pipeline.references (p : Pipeline) : List String :=
  (p.projection.getD []).flatMap projectedReferences ++
    (Json.obj (p.filter.getD [])).queryReferences

namespace Json

variable {r s key : String} {e v : Json} {items queries : List Json} {members : Members}

/-- A string is its own reference, if it begins with a dollar sign. -/
@[simp] theorem mem_references_str : r ∈ (str s).references ↔ beginsWith "$" s = true ∧ r = s := by
  simp only [references, fold]
  split <;> next h => simp [h]

/-- A null refers to nothing. -/
@[simp] theorem references_null : null.references = [] := rfl

/-- A truth value refers to nothing. -/
@[simp] theorem references_bool {b : Bool} : (bool b).references = [] := rfl

/-- A whole number refers to nothing. -/
@[simp] theorem references_int {n : Int} : (int n).references = [] := rfl

/-- A number with a fraction refers to nothing. -/
@[simp] theorem references_double {x : Double} : (double x).references = [] := rfl

/-- A computed number refers to nothing. -/
@[simp] theorem references_ofDouble {x : Double} : (ofDouble x).references = [] := by
  unfold ofDouble
  repeat' split
  all_goals rfl

/-- A list refers to what its items refer to. -/
@[simp] theorem mem_references_arr :
    r ∈ (arr items).references ↔ ∃ e ∈ items, r ∈ e.references := by
  have hreferences : (arr items).references = (items.map references).flatten := fold_arr items
  rw [hreferences, ← List.flatMap_def, List.mem_flatMap]

/-- An object refers to what its members refer to, save under `$literal`. -/
@[simp] theorem mem_references_obj : r ∈ (obj members).references ↔
    ∃ m ∈ members, m.1 ≠ "$literal" ∧ r ∈ m.2.references := by
  have hreferences : (obj members).references =
      (members.map fun m ↦ (m.1, m.2.references)).flatMap fun (key, found) ↦
        if key = "$literal" then [] else found := fold_obj members
  rw [hreferences, List.flatMap_map, List.mem_flatMap]
  refine exists_congr fun m ↦ and_congr_right fun _ ↦ ?_
  by_cases h : m.1 = "$literal" <;> simp [h]

/-- An operator refers to what its operand refers to, unless it is `$literal`. -/
@[simp] theorem mem_references_single :
    r ∈ (single key e).references ↔ key ≠ "$literal" ∧ r ∈ e.references := by
  simp [single]

/-- An expression as a query refers to what the expression does. -/
@[simp] theorem queryReferences_exprQuery :
    (Fragment.exprQuery e).queryReferences = e.references := by
  simp [Fragment.exprQuery, single, queryReferences, testReferences]

/-- A query refers to what its members do. -/
theorem queryReferences_obj : (obj members).queryReferences =
    members.flatMap fun m ↦ (single m.1 m.2).queryReferences := by
  simp only [queryReferences]
  induction members with
  | nil => rfl
  | cons m rest ih =>
    obtain ⟨key, v⟩ := m
    simp only [testReferences, ih, List.flatMap_cons, single, queryReferences, List.append_nil]

/-- A combination of queries refers to what they do. -/
theorem queryReferences_branches (hkey : key = "$and" ∨ key = "$or" ∨ key = "$nor") :
    (single key (.arr queries)).queryReferences = queries.flatMap queryReferences := by
  have hne : key ≠ "$expr" := by rcases hkey with rfl | rfl | rfl <;> decide
  simp only [single, queryReferences, testReferences, hne, hkey, branchReferences, if_false,
    if_true, List.append_nil]
  induction queries with
  | nil => rfl
  | cons q rest ih => rw [branchesReferences, ih, List.flatMap_cons]

/-- The negation of a query refers to what the query does. -/
@[simp] theorem mem_queryReferences_negateQuery {q : Json} :
    r ∈ (Fragment.negateQuery q).queryReferences ↔ r ∈ q.queryReferences := by
  unfold Fragment.negateQuery
  split
  · next e =>
    have hquery : obj [("$expr", e)] = Fragment.exprQuery e := rfl
    simp [hquery, Fragment.negateExpr]
  · simp [queryReferences_branches]

end Json

namespace Members

variable {members : Members} {key : String} {value : Json} {m : String × Json}

/-- Where the keys increase, putting in a member keeps the members with other keys. -/
theorem mem_insert_iff (hincr : members.Increasing) :
    m ∈ members.insert key value ↔ m = (key, value) ∨ m ∈ members ∧ m.1 ≠ key := by
  cases hget : members.get? key with
  | none =>
    have hne : ∀ m ∈ members, m.1 ≠ key := by
      rintro ⟨k, v⟩ hm rfl
      have hnone := List.lookup_eq_none_iff.mp hget _ hm
      simp at hnone
    have hnew : members.has key = false := by rw [has, hget, Option.isSome_none]
    obtain ⟨before, after, hmembers, hinsert⟩ := @exists_insert_of_has_eq_false _ _ value hnew
    rw [hinsert, and_iff_left_of_imp (hne m), hmembers]
    simp only [List.mem_append, List.mem_cons]
    tauto
  | some v =>
    obtain ⟨before, after, hmembers, hinsert⟩ :=
      @exists_insert_of_get?_eq_some _ _ _ value hincr hget
    rw [hmembers] at hincr
    obtain ⟨-, hafter, hbefore⟩ := List.pairwise_append.mp hincr
    have hne : ∀ m ∈ before ++ after, m.1 ≠ key := by
      intro m hm
      rcases List.mem_append.mp hm with hm | hm
      · exact (hbefore m hm _ List.mem_cons_self).ne
      · exact ((List.pairwise_cons.mp hafter).1 m hm).ne'
    rw [hinsert, hmembers]
    simp only [List.mem_append, List.mem_cons] at hne ⊢
    constructor
    · rintro (h | rfl | h)
      · exact Or.inr ⟨Or.inl h, hne m (Or.inl h)⟩
      · exact Or.inl rfl
      · exact Or.inr ⟨Or.inr (Or.inr h), hne m (Or.inr h)⟩
    · rintro (rfl | ⟨h | rfl | h, hm⟩)
      · exact Or.inr (Or.inl rfl)
      · exact Or.inl h
      · exact absurd rfl hm
      · exact Or.inr (Or.inr h)

/-- Entries with keys of their own that are put in last are all there, beside the earlier members
with other keys. -/
theorem mem_ofList_append {before entries : List (String × Json)}
    (hkeys : (entries.map (·.1)).Nodup) :
    m ∈ ofList (before ++ entries) ↔
      m ∈ entries ∨ m ∈ ofList before ∧ m.1 ∉ entries.map (·.1) := by
  rw [ofList, List.foldl_append]
  have hincr : Increasing (ofList before) := isSorted_ofList before
  change m ∈ entries.foldl _ (ofList before) ↔ _
  generalize ofList before = members at hincr ⊢
  induction entries generalizing members with
  | nil => simp
  | cons e rest ih =>
    rw [List.map_cons, List.nodup_cons] at hkeys
    rw [List.foldl_cons, ih hkeys.2 _ hincr.insert, mem_insert_iff hincr, List.map_cons,
      List.mem_cons, List.mem_cons, not_or]
    have he : m = e → m.1 ∉ rest.map (·.1) := by
      rintro rfl
      exact hkeys.1
    tauto

/-- What is joined under `$and`, if anything, is a list. -/
def JoinsLists (members : Members) : Prop :=
  ∀ v, members.get? "$and" = some v → ∃ items, v = .arr items

end Members

/-- A query with one member that can be joined with others: what it has under `$and` is a list. -/
def Json.IsJoinable (q : Json) : Prop :=
  ∃ key v, q = .single key v ∧ (key = "$and" → ∃ items, v = .arr items)

section Merging

open Json

variable {target : Members} {key r : String} {v : Json}

private theorem mem_queryReferences_insert_new (h : target.has key = false) :
    r ∈ (obj (target.insert key v)).queryReferences ↔
      r ∈ (obj target).queryReferences ∨ r ∈ (single key v).queryReferences := by
  obtain ⟨before, after, htarget, hinsert⟩ := Members.exists_insert_of_has_eq_false h
  rw [hinsert, htarget]
  simp only [queryReferences_obj, List.flatMap_append, List.flatMap_cons, List.mem_append]
  tauto

private theorem mem_queryReferences_insert_and {items : List Json} (hincr : target.Increasing)
    (h : target.get? "$and" = some (.arr items)) (moved : List Json) :
    r ∈ (obj (target.insert "$and" (.arr (items ++ moved)))).queryReferences ↔
      r ∈ (obj target).queryReferences ∨ r ∈ moved.flatMap queryReferences := by
  obtain ⟨before, after, htarget, hinsert⟩ := Members.exists_insert_of_get?_eq_some hincr h
  rw [hinsert, htarget]
  simp only [queryReferences_obj, queryReferences_branches (Or.inl rfl), List.flatMap_append,
    List.flatMap_cons, List.mem_append]
  tauto

private theorem joinsLists_insert {w : Json} (h : target.JoinsLists)
    (hv : key = "$and" → ∃ items, w = .arr items) : (target.insert key w).JoinsLists := by
  intro u hu
  by_cases hkey : key = "$and"
  · subst hkey
    rw [Members.get?_insert_self] at hu
    cases hu
    exact hv rfl
  · rw [Members.get?_insert_of_ne (Ne.symm hkey)] at hu
    exact h u hu

private theorem mem_queryReferences_mergeMember (hincr : target.Increasing)
    (hjoins : target.JoinsLists) (hv : key = "$and" → ∃ items, v = .arr items) :
    (mergeMember target key v).JoinsLists ∧
      (r ∈ (obj (mergeMember target key v)).queryReferences ↔
        r ∈ (obj target).queryReferences ∨ r ∈ (single key v).queryReferences) := by
  unfold mergeMember
  split
  · next h =>
    exact ⟨joinsLists_insert hjoins hv, mem_queryReferences_insert_new (by simpa using h)⟩
  · extract_lets moved
    have hmoved : (single key v).queryReferences = moved.flatMap queryReferences := by
      simp only [moved]
      split
      · exact queryReferences_branches (Or.inl rfl)
      · simp
    rw [hmoved]
    split
    · next h =>
      refine ⟨joinsLists_insert hjoins fun _ ↦ ⟨_, rfl⟩, ?_⟩
      rw [mem_queryReferences_insert_new (by simp [Members.has, h]),
        queryReferences_branches (Or.inl rfl)]
    · next h =>
      exact ⟨joinsLists_insert hjoins fun _ ↦ ⟨_, rfl⟩,
        mem_queryReferences_insert_and hincr h moved⟩
    · next w hw h =>
      obtain ⟨items, rfl⟩ := hjoins w h
      exact absurd rfl (hw items)

/-- The match refers to what the queries of its roots refer to, where they can be joined. -/
theorem mem_queryReferences_foldl_mergeRoot {queries : List Json}
    (hqueries : ∀ q ∈ queries, q.IsJoinable) :
    r ∈ (obj (queries.foldl mergeRoot [])).queryReferences ↔
      r ∈ queries.flatMap queryReferences := by
  have hfold : ∀ target : Members, target.Increasing → target.JoinsLists →
      (r ∈ (obj (queries.foldl mergeRoot target)).queryReferences ↔
        r ∈ (obj target).queryReferences ∨ r ∈ queries.flatMap queryReferences) := by
    induction queries with
    | nil => simp
    | cons q rest ih =>
      intro target hincr hjoins
      rw [List.forall_mem_cons] at hqueries
      obtain ⟨⟨key, v, rfl, hv⟩, hrest⟩ := hqueries
      obtain ⟨hjoins', hmem⟩ := mem_queryReferences_mergeMember (r := r) hincr hjoins hv
      rw [List.foldl_cons, single, mergeRoot, List.foldl_cons, List.foldl_nil,
        ih hrest _ hincr.mergeMember hjoins', hmem, List.flatMap_cons, List.mem_append, or_assoc,
        single]
  rw [hfold [] List.Pairwise.nil (fun v hv ↦ by cases hv)]
  simp [queryReferences, testReferences]

end Merging

end FilterPipeline
