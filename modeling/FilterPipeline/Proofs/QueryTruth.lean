import FilterPipeline.Proofs.ProjectionKeys
import FilterPipeline.Proofs.Traversal
import FilterPipeline.Proofs.Unrolling

/-!
# The match is the conjunction of the roots

The queries of several roots are merged into one object, member by member, and a key that is taken
goes under a shared `$and`. Main statement: whatever tests of paths and expressions hold, the match
of a filter holds exactly when all of its roots do that contribute something, and a filter without
such a root has no match.
-/

namespace FilterPipeline

open Relation Fragment

/-- Which tests of paths hold, and which aggregation expressions. -/
structure QueryReading where
  test : (path : String) → Json → Bool
  expr : Json → Bool

namespace QueryReading

variable (V : QueryReading)

/-- Whether an aggregation expression holds; a negation does when what is negated does not. -/
def exprHolds : Json → Bool
  | .obj [("$not", .arr [e])] => !exprHolds e
  | e => V.expr e

mutual

/-- Whether a query holds: all members of it do. -/
def holds : Json → Bool
  | .obj members => membersHold members
  | _ => false

/-- Whether all members of a query hold: combinations by way of their parts, expressions as
expressions, and any other key as a test. -/
def membersHold : List (String × Json) → Bool
  | [] => true
  | (key, v) :: rest =>
    (if key = "$expr" then V.exprHolds v
    else if key = "$and" then (partsHold? v).any (·.all id)
    else if key = "$or" then (partsHold? v).any (·.any id)
    else if key = "$nor" then (partsHold? v).any (!·.any id)
    else V.test key v) && membersHold rest

/-- Which parts of a combination hold. There is no combination of what is no list, and it does not
hold. -/
def partsHold? : Json → Option (List Bool)
  | .arr queries => some (queriesHold queries)
  | _ => none

/-- Which of several queries hold. -/
def queriesHold : List Json → List Bool
  | [] => []
  | q :: rest => holds q :: queriesHold rest

end

/-- Several queries are read one by one. -/
theorem queriesHold_eq_map (queries : List Json) : V.queriesHold queries = queries.map V.holds := by
  induction queries with
  | nil => rfl
  | cons q queries ih => rw [queriesHold, ih, List.map_cons]

/-- Members hold when each of them does by itself. -/
theorem membersHold_eq_all (members : Members) :
    V.membersHold members = members.all fun m ↦ V.holds (.single m.1 m.2) := by
  induction members with
  | nil => rfl
  | cons m members ih =>
    rw [List.all_cons, ← ih]
    simp only [holds, Json.single, membersHold, Bool.and_true]

/-- A conjunction holds when all of its parts do. -/
@[simp] theorem holds_and (queries : List Json) :
    V.holds (.single "$and" (.arr queries)) = queries.all V.holds := by
  simp [Json.single, holds, membersHold, partsHold?, queriesHold_eq_map]

/-- A disjunction holds when some part does. -/
@[simp] theorem holds_or (queries : List Json) :
    V.holds (.single "$or" (.arr queries)) = queries.any V.holds := by
  simp [Json.single, holds, membersHold, partsHold?, queriesHold_eq_map]

private theorem holds_and_of_items?_eq_none {v : Json} (h : v.items? = none) :
    V.holds (.single "$and" v) = false := by
  cases v with
  | arr queries => cases h
  | null | bool _ | int _ | double _ | str _ | obj _ =>
    simp [Json.single, holds, membersHold, partsHold?]

end QueryReading

/-- The truth of a combination from the truths of its parts; without parts there is none. -/
def Logic.truth? : Logic → List Bool → Option Bool
  | _, [] => none
  | .and, parts => some (parts.all id)
  | .or, parts => some (parts.any id)

/-- A combination of queries holds as the logic has it. -/
theorem Logic.map_holds_combine (V : QueryReading) (logic : Logic) (parts : List Json) :
    (logic.combine parts).map V.holds = logic.truth? (parts.map V.holds) := by
  match parts with
  | [] => rfl
  | [part] => cases logic <;> simp [combine, truth?]
  | part :: part' :: parts =>
    cases logic
    · simp [combine, truth?, Logic.key]
    · simp [combine, truth?, Logic.key]

namespace Generator

variable (g : Generator) (V : QueryReading) (p : Projection)

mutual

/-- Whether a block holds, if it contributes something: a negated named block when the field that is
computed for it is false, any other as its logic says of the children that contribute. -/
def blockTruth? : Block → Option Bool
  | b@⟨_, logic, children, _, _⟩ =>
    if b.isNegatedNamed then
      (p.blocks.find? (·.2.same b)).map fun (name, _) ↦ V.holds (.single name (.bool false))
    else logic.truth? (nodeTruths children)

/-- Whether the nodes hold that contribute something; a condition holds when the query does that it
is compiled to. -/
def nodeTruths : List Node → List Bool
  | [] => []
  | .block b :: rest => (blockTruth? b).toList ++ nodeTruths rest
  | .condition c :: rest =>
    ((g.conditionQuery p c (g.operandExpr .document c)).map V.holds).toList ++ nodeTruths rest

end

mutual

/-- The query of a block holds when the block does. -/
theorem map_holds_blockQuery : (b : Block) →
    (g.blockQuery p b).map V.holds = g.blockTruth? V p b
  | ⟨_, logic, children, _, _⟩ => by
    simp only [blockQuery, blockTruth?]
    split
    · rw [Option.map_map]
      rfl
    · rw [logic.map_holds_combine, map_holds_nodeQueries children]

/-- The queries of nodes hold when the nodes do. -/
theorem map_holds_nodeQueries : (nodes : List Node) →
    (g.nodeQueries p nodes).map V.holds = g.nodeTruths V p nodes
  | [] => rfl
  | .block b :: rest => by
    rw [nodeQueries_block, List.map_append, map_holds_nodeQueries rest, nodeTruths,
      ← map_holds_blockQuery b, Option.toList_map]
  | .condition c :: rest => by
    rw [nodeQueries_condition, List.map_append, map_holds_nodeQueries rest, nodeTruths,
      Option.toList_map]

end

end Generator

namespace Members

/-- The keys of members increase. -/
def Increasing (members : Members) : Prop := members.Pairwise fun m m' ↦ m.1 < m'.1

variable {members : Members} {key : String} {v value : Json}

/-- Putting in a member keeps the keys in order. -/
theorem Increasing.insert (h : members.Increasing) : (members.insert key value).Increasing := by
  induction members with
  | nil => exact List.pairwise_singleton _ _
  | cons m rest ih =>
    obtain ⟨k, w⟩ := m
    obtain ⟨hk, hrest⟩ := List.pairwise_cons.mp h
    simp only [Members.insert]
    split
    · next hlt =>
      refine List.pairwise_cons.mpr ⟨fun m hm ↦ ?_, h⟩
      rcases List.mem_cons.mp hm with rfl | hm
      · exact hlt
      · exact String.lt_trans hlt (hk m hm)
    · split
      · next heq => exact List.pairwise_cons.mpr ⟨fun m hm ↦ heq ▸ hk m hm, hrest⟩
      · next hlt hne =>
        refine List.pairwise_cons.mpr ⟨fun m hm ↦ ?_, ih hrest⟩
        rcases mem_of_mem_insert hm with heq | hm
        · rw [(Prod.mk.inj heq).1]
          exact Std.lt_of_le_of_ne hlt (Ne.symm hne)
        · exact hk m hm

/-- A member with a new key is put between others. -/
theorem exists_insert_of_has_eq_false (h : members.has key = false) :
    ∃ before after, members = before ++ after ∧
      members.insert key value = before ++ (key, value) :: after := by
  induction members with
  | nil => exact ⟨[], [], rfl, rfl⟩
  | cons m rest ih =>
    obtain ⟨k, w⟩ := m
    simp only [Members.insert]
    split
    · exact ⟨[], _, rfl, rfl⟩
    · split
      · next heq =>
        subst heq
        simp [has, get?] at h
      · next hne =>
        have hrest : has rest key = false := by
          have hk : (key == k) = false := by simpa using hne
          simpa only [has, get?, List.lookup_cons, hk] using h
        obtain ⟨before, after, hmembers, hinsert⟩ := ih hrest
        exact ⟨(k, w) :: before, after, by rw [hmembers]; rfl, by rw [hinsert]; rfl⟩

/-- Where the keys increase, a member with a key that is there takes the place of the old one. -/
theorem exists_insert_of_get?_eq_some (hincr : members.Increasing)
    (h : members.get? key = some v) :
    ∃ before after, members = before ++ (key, v) :: after ∧
      members.insert key value = before ++ (key, value) :: after := by
  induction members with
  | nil => cases h
  | cons m rest ih =>
    obtain ⟨k, w⟩ := m
    obtain ⟨hk, hrest⟩ := List.pairwise_cons.mp hincr
    simp only [Members.insert]
    by_cases heq : key = k
    · subst heq
      have hv : w = v := by simpa [get?] using h
      subst hv
      rw [if_neg (String.lt_irrefl key), if_pos rfl]
      exact ⟨[], rest, rfl, rfl⟩
    · have hget : get? rest key = some v := by
        have hne : (key == k) = false := by simpa using heq
        simpa only [get?, List.lookup_cons, hne] using h
      obtain ⟨before, after, hmembers, hinsert⟩ := ih hrest hget
      have hmem : (key, v) ∈ rest := by simp [hmembers]
      have hlt : ¬ key < k := String.lt_asymm (hk _ hmem)
      rw [if_neg hlt, if_neg heq]
      exact ⟨(k, w) :: before, after, by rw [hmembers]; rfl, by rw [hinsert]; rfl⟩

end Members

/-- Adding a member to the match keeps the keys in order. -/
theorem Members.Increasing.mergeMember {target : Members} {key : String} {v : Json}
    (h : target.Increasing) : (mergeMember target key v).Increasing := by
  unfold FilterPipeline.mergeMember
  split
  · exact h.insert
  · extract_lets moved
    split
    · exact h.insert
    · exact h.insert
    · exact h

namespace QueryReading

variable (V : QueryReading) {target : Members} {key : String} {v : Json}

private theorem membersHold_insert_new (h : target.has key = false) :
    V.membersHold (target.insert key v) = (V.membersHold target && V.holds (.single key v)) := by
  obtain ⟨before, after, htarget, hinsert⟩ := Members.exists_insert_of_has_eq_false h
  rw [hinsert, htarget]
  simp only [membersHold_eq_all, List.all_append, List.all_cons]
  cases V.holds (.single key v) <;> simp

private theorem membersHold_insert_and {items : List Json} (hincr : target.Increasing)
    (h : target.get? "$and" = some (.arr items)) (moved : List Json) :
    V.membersHold (target.insert "$and" (.arr (items ++ moved))) =
      (V.membersHold target && moved.all V.holds) := by
  obtain ⟨before, after, htarget, hinsert⟩ := Members.exists_insert_of_get?_eq_some hincr h
  rw [hinsert, htarget]
  simp only [membersHold_eq_all, List.all_append, List.all_cons, holds_and]
  cases moved.all V.holds <;> simp

private theorem membersHold_mergeMember (hincr : target.Increasing) :
    V.membersHold (mergeMember target key v) =
      (V.membersHold target && V.holds (.single key v)) := by
  unfold mergeMember
  split
  · next h => exact V.membersHold_insert_new (by simpa using h)
  · extract_lets moved
    have hmoved : moved.all V.holds = V.holds (.single key v) := by
      simp only [moved]
      split
      · rw [holds_and]
      · simp
    rw [← hmoved]
    split
    · next h =>
      rw [V.membersHold_insert_new (by simp [Members.has, h]), holds_and]
    · next items h => exact V.membersHold_insert_and hincr h moved
    · next w hw h =>
      -- what stands under `$and` is no list, so that the match does not hold in any case
      have hand : V.holds (.single "$and" w) = false := by
        apply V.holds_and_of_items?_eq_none
        cases w with
        | arr items => exact absurd rfl (hw items)
        | null | bool _ | int _ | double _ | str _ | obj _ => rfl
      obtain ⟨before, after, htarget, -⟩ := List.lookup_eq_some_iff.mp h
      have hfalse : V.membersHold target = false := by
        rw [membersHold_eq_all, htarget]
        simp [hand]
      rw [hfalse, Bool.false_and]

private theorem membersHold_mergeRoot (hincr : target.Increasing) (members : Members) :
    (mergeRoot target (.obj members)).Increasing ∧
      V.membersHold (mergeRoot target (.obj members)) =
        (V.membersHold target && V.membersHold members) := by
  simp only [mergeRoot]
  induction members generalizing target with
  | nil => exact ⟨hincr, by simp [membersHold]⟩
  | cons m members ih =>
    obtain ⟨hincr', hholds⟩ := @ih (mergeMember target m.1 m.2) hincr.mergeMember
    refine ⟨hincr', ?_⟩
    rw [List.foldl_cons, hholds, V.membersHold_mergeMember hincr, Bool.and_assoc]
    simp only [membersHold_eq_all, List.all_cons]

end QueryReading

/-- An object with one member. -/
def Json.IsSingle (v : Json) : Prop := ∃ key w, v = .single key w

private theorem Fragment.isSingle_negateQuery (q : Json) : (negateQuery q).IsSingle := by
  unfold negateQuery
  split
  · exact ⟨_, _, rfl⟩
  · exact ⟨_, _, rfl⟩

private theorem ListPredicate.isSingle_toQuery (q : ListPredicate) : q.toQuery.IsSingle := by
  cases q with
  | expr e => exact ⟨_, _, rfl⟩
  | isArray path reference => exact ⟨_, _, rfl⟩

namespace Generator

variable {g : Generator} {p : Projection}

/-- A comparison of a field is a query with one member. -/
theorem isSingle_compareQuery {field : String} {op : Operator} {v q : Json}
    {type : Option FieldType} (hq : g.compareQuery field op v type = some q) : q.IsSingle := by
  cases op with
  | compare c =>
    cases c with
    | eq | ne =>
      simp only [compareQuery] at hq
      split at hq <;> (cases hq; exact ⟨_, _, rfl⟩)
    | gt | gte | lt | lte =>
      cases hq
      exact ⟨_, _, rfl⟩
  | oneOf | noneOf | regex | contains | startsWith | endsWith | present | isNumber =>
    cases hq
    exact ⟨_, _, rfl⟩
  | between | notBetween =>
    simp only [compareQuery, Option.bind_eq_bind, Option.bind_eq_some_iff] at hq
    obtain ⟨⟨low, high⟩, -, hq⟩ := hq
    cases hq
    exact ⟨_, _, rfl⟩
  | longerThan | shorterThan =>
    simp only [compareQuery, Option.bind_eq_bind, Option.bind_eq_some_iff] at hq
    obtain ⟨n, -, hq⟩ := hq
    split at hq <;> (cases hq; exact ⟨_, _, rfl⟩)
  | list l => cases hq

private theorem isSingle_baseQuery {field : String} {op : Operator} {operand : Operand}
    {element : Option Json} {q : Json} (hq : g.baseQuery field op operand element = some q) :
    q.IsSingle := by
  unfold baseQuery at hq
  split at hq
  · obtain ⟨query, -, rfl⟩ := Option.map_eq_some_iff.mp hq
    exact ListPredicate.isSingle_toQuery _
  · cases hq
    exact ListPredicate.isSingle_toQuery _
  · obtain ⟨v, -, hq⟩ := Option.bind_eq_some_iff.mp hq
    exact isSingle_compareQuery hq

private theorem isSingle_of_bind {c : Condition} {fragment : Option Json} {q : Json}
    (h : ∀ e, fragment = some e → e.IsSingle)
    (hq : (fragment.bind fun e ↦ some (if c.isNegated then negateQuery e else e)) = some q) :
    q.IsSingle := by
  obtain ⟨e, he, hq⟩ := Option.bind_eq_some_iff.mp hq
  cases hq
  split
  · exact isSingle_negateQuery e
  · exact h e he

private theorem isSingle_conditionQuery {c : Condition} {element : Option Json} {q : Json}
    (hq : g.conditionQuery p c element = some q) : q.IsSingle := by
  simp only [conditionQuery, Option.bind_eq_bind, Option.bind_eq_some_iff] at hq
  obtain ⟨field, -, op, -, hq⟩ := hq
  split at hq
  · split at hq
    · simp only [materializedQuery, Option.bind_eq_bind] at hq
      split at hq
      · exact isSingle_of_bind (fun _ ↦ isSingle_compareQuery) hq
      · exact isSingle_of_bind (fun _ ↦ isSingle_compareQuery) hq
      · exact isSingle_of_bind (fun _ ↦ isSingle_compareQuery) hq
      · exact isSingle_of_bind (fun _ he ↦ Option.some.inj he ▸ ⟨_, _, rfl⟩) hq
      · exact isSingle_of_bind (fun _ ↦ isSingle_compareQuery) hq
    · obtain ⟨e, -, rfl⟩ := Option.map_eq_some_iff.mp hq
      exact ⟨_, _, rfl⟩
  · split at hq
    · obtain ⟨v, -, hq⟩ := Option.bind_eq_some_iff.mp hq
      obtain ⟨e, -, hq⟩ := Option.bind_eq_some_iff.mp hq
      exact isSingle_of_bind (fun _ he ↦ Option.some.inj he ▸ ⟨_, _, rfl⟩) hq
    · exact isSingle_of_bind (fun _ ↦ isSingle_baseQuery) hq
  · exact isSingle_of_bind (fun _ ↦ isSingle_baseQuery) hq

/-- A block is compiled to a query with one member. -/
theorem isSingle_blockQuery {b : Block} {q : Json} (hq : g.blockQuery p b = some q) :
    q.IsSingle := by
  have hinvariant : g.QueryInvariant p (fun _ ↦ True) Json.IsSingle :=
    ⟨fun n _ ↦ ⟨_, _, rfl⟩, fun _ _ _ ↦ ⟨_, _, rfl⟩, fun _ _ _ h ↦ isSingle_conditionQuery h⟩
  exact hinvariant.block b (fun _ _ ↦ trivial) q hq

end Generator

private theorem mergeMember_ne_nil (target : Members) (key : String) (v : Json) :
    mergeMember target key v ≠ [] := by
  have hinsert : ∀ (members : Members) (k : String) (w : Json), members.insert k w ≠ [] := by
    intro members k w hnil
    have hmem : k ∈ (members.insert k w).keys := Members.mem_keys_insert.mpr (Or.inl rfl)
    rw [hnil] at hmem
    cases hmem
  unfold mergeMember
  split
  · exact hinsert _ _ _
  · next h =>
    extract_lets moved
    split
    · exact hinsert _ _ _
    · exact hinsert _ _ _
    · rintro rfl
      simp [Members.has, Members.get?] at h

/-- Merging the queries of roots leaves no member only if there is no root. -/
theorem foldl_mergeRoot_eq_nil_iff {queries : List Json} (h : ∀ q ∈ queries, q.IsSingle) :
    queries.foldl mergeRoot [] = [] ↔ queries = [] := by
  constructor
  · intro hnil
    by_contra hne
    obtain ⟨key, v, hlast⟩ := h (queries.getLast hne) (List.getLast_mem hne)
    rw [← List.dropLast_append_getLast hne, List.foldl_append, hlast] at hnil
    exact mergeMember_ne_nil _ key v hnil
  · rintro rfl
    rfl

/-- The match that the queries of roots are merged into holds when all of them do. -/
theorem QueryReading.membersHold_foldl_mergeRoot (V : QueryReading) {queries : List Json}
    (h : ∀ q ∈ queries, q.IsSingle) {target : Members} (hincr : target.Increasing) :
    V.membersHold (queries.foldl mergeRoot target) =
      (V.membersHold target && queries.all V.holds) := by
  induction queries generalizing target with
  | nil => simp
  | cons q queries ih =>
    rw [List.forall_mem_cons] at h
    obtain ⟨⟨key, v, rfl⟩, hrest⟩ := h
    obtain ⟨hincr', hholds⟩ := V.membersHold_mergeRoot hincr [(key, v)]
    rw [List.foldl_cons, List.all_cons, Json.single, ih hrest hincr', hholds, Bool.and_assoc]
    rfl

namespace Context

variable (ctx : Context)

/-- Where no definition leads back to itself, a filter has a match exactly when some root
contributes something, and under every reading of tests and expressions the match holds exactly when
all roots do that contribute, whichever of their keys collide. -/
theorem filter_holds_iff_roots (hacyclic : ∀ name, ¬ TransGen ctx.resolver.Enters name name)
    (V : QueryReading) (blocks : List Block) :
    ∃ pipeline, ctx.compile? blocks = some pipeline ∧
      (pipeline.filter.isSome = true ↔
        ∃ b ∈ blocks, (ctx.generator.blockTruth? V (ctx.projection blocks) b).isSome = true) ∧
      ∀ content, pipeline.filter = some content → V.holds (.obj content) =
        (blocks.filterMap (ctx.generator.blockTruth? V (ctx.projection blocks))).all id := by
  obtain ⟨pipeline, hcompile, -, hfilter, -, hne⟩ := ctx.exists_compile?_eq hacyclic blocks
  let queries := blocks.filterMap (ctx.generator.blockQuery (ctx.projection blocks))
  have hsingle : ∀ q ∈ queries, q.IsSingle := by
    intro q hq
    obtain ⟨b, -, hq⟩ := List.mem_filterMap.mp hq
    exact Generator.isSingle_blockQuery hq
  have htruths : blocks.filterMap (ctx.generator.blockTruth? V (ctx.projection blocks)) =
      queries.map V.holds := by
    rw [List.map_filterMap]
    exact List.filterMap_congr fun b _ ↦ (ctx.generator.map_holds_blockQuery V _ b).symm
  have hmembers : ctx.filterMembers blocks = queries.foldl mergeRoot [] := rfl
  refine ⟨pipeline, hcompile, ?_, fun content hcontent ↦ ?_⟩
  · have hcontributes : (∃ b ∈ blocks,
        (ctx.generator.blockTruth? V (ctx.projection blocks) b).isSome = true) ↔ queries ≠ [] := by
      rw [ne_eq, List.filterMap_eq_nil_iff]
      simp [← Generator.map_holds_blockQuery, Option.ne_none_iff_isSome]
    rw [hcontributes, ne_eq, ← foldl_mergeRoot_eq_nil_iff hsingle, ← hmembers, ← hfilter]
    cases hcontent : pipeline.filter with
    | none => simp
    | some content =>
      have hcontent : content ≠ [] := fun h ↦ hne (by rw [hcontent, h])
      simpa using hcontent
  · have hcontent : content = ctx.filterMembers blocks := by
      rw [← hfilter, hcontent, Option.getD_some]
    rw [hcontent, htruths, hmembers, QueryReading.holds,
      V.membersHold_foldl_mergeRoot hsingle List.Pairwise.nil, List.all_map]
    rfl

/-- Roots that ask for a `mag` above 15, for a `jd` above 1 and a `mag` other than 17, and for a
`mag` below 20: the second is a conjunction already, and the third has the key of the first. -/
def magnitudeRoots : List Block :=
  let test (op : Comparison) (field : String) (n : Int) : Node :=
    .condition ⟨"c", some field, some (.compare op), .literal (.int n), none⟩
  [⟨"a", .and, [test .gt "mag" 15], none, true⟩,
    ⟨"b", .and, [test .gt "jd" 1, test .ne "mag" 17], none, true⟩,
    ⟨"c", .or, [test .lt "mag" 20], none, true⟩]

/-- The reading in which just the tests of `mag` hold. -/
def magnitudesHold : QueryReading := ⟨fun path _ ↦ path == "mag", fun _ ↦ false⟩

/-- The match of these roots holds when all three do. -/
theorem magnitudeRoots_filter_holds :
    ∃ pipeline, default.compile? magnitudeRoots = some pipeline ∧
      (pipeline.filter.isSome = true ↔ ∃ b ∈ magnitudeRoots, (default.generator.blockTruth?
        magnitudesHold (default.projection magnitudeRoots) b).isSome = true) ∧
      ∀ content, pipeline.filter = some content → magnitudesHold.holds (.obj content) =
        (magnitudeRoots.filterMap (default.generator.blockTruth? magnitudesHold
          (default.projection magnitudeRoots))).all id :=
  default.filter_holds_iff_roots (default.resolver.acyclic_iff.mpr fun _ h ↦ by cases h)
    magnitudesHold magnitudeRoots

end Context
end FilterPipeline
