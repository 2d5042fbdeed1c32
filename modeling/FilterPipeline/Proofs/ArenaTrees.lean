import FilterPipeline.Filter.Arena
import FilterPipeline.Proofs.ArenaRemoval
import FilterPipeline.Proofs.FilterEdits

/-!
# The filter that an arena holds

Reading a filter out of an arena gives each node in a slot once: its nodes are those in the slots,
and the index knows their ids. What is read below a slot depends on the slots behind it only, so
statements about it are proved from the last slots to the first ones.
-/

namespace FilterPipeline

/-- The node in a slot, with children that have been read already. -/
def Slot.toNode (s : Slot) (children : List Node) : Node :=
  match s.payload with
  | .block logic name mustHold => .block ⟨s.id, logic, children, name, mustHold⟩
  | .condition c => .condition c

namespace Arena

/-- The tree below a slot. -/
def tree? (a : Arena) (i : Nat) : Option Node := a.build? a.slots.size i

/-- The trees below several slots. -/
def treesOf (a : Arena) (slots : List Nat) : List Node := slots.filterMap a.tree?

/-- The filter that an arena holds, and the number in the next generated id. -/
def draft (a : Arena) : Draft := ⟨a.toBlocks, a.nextId⟩

variable {a b : Arena} {i j : Nat} {id : String} {s t : Slot} {n : Node}

/-- A tree of a number of levels has children of one level less. -/
theorem build?_succ (a : Arena) (levels i : Nat) :
    a.build? (levels + 1) i =
      (a.slot? i).map fun s ↦ s.toNode (s.children.filterMap (a.build? levels)) := by
  rw [build?]
  cases a.slot? i with
  | none => rfl
  | some s =>
    simp only [Option.bind_eq_bind, Option.bind_some, Option.map_some, Slot.toNode]
    cases s.payload <;> rfl

namespace IsLinked

variable (ha : a.IsLinked)

include ha

/-- What holds of a node whenever it holds of its children holds of all nodes. -/
theorem slot_induction {motive : Nat → Slot → Prop}
    (step : ∀ i s, a.slot? i = some s →
      (∀ c ∈ s.children, ∀ t, a.slot? c = some t → motive c t) → motive i s)
    (i : Nat) (s : Slot) (hi : a.slot? i = some s) : motive i s := by
  induction hn : a.slots.size - i using Nat.strong_induction_on generalizing i s with
  | h n ih =>
    refine step i s hi fun c hc t ht ↦ ih _ ?_ c t ht rfl
    have := ha.lt_child hi hc
    have := lt_size_of_slot? ht
    omega

private theorem build?_congr : (levels levels' i : Nat) → a.slots.size ≤ levels + i →
    a.slots.size ≤ levels' + i → a.build? levels i = a.build? levels' i
  | 0, 0, _, _, _ => rfl
  | 0, levels' + 1, i, h, _ => by
    rw [build?_succ, slot?_eq_none (by omega), build?, Option.map_none]
  | levels + 1, 0, i, _, h => by
    rw [build?_succ, slot?_eq_none (by omega), build?, Option.map_none]
  | levels + 1, levels' + 1, i, h, h' => by
    rw [build?_succ, build?_succ]
    refine Option.map_congr fun s hs ↦ congrArg s.toNode (List.filterMap_congr fun c hc ↦ ?_)
    have := ha.lt_child hs hc
    exact build?_congr levels levels' c (by omega) (by omega)

/-- The tree below a node is the node with the trees below its children. -/
theorem tree?_eq (i : Nat) :
    a.tree? i = (a.slot? i).map fun s ↦ s.toNode (a.treesOf s.children) := by
  rw [tree?, ha.build?_congr a.slots.size (a.slots.size + 1) i (by omega) (by omega), build?_succ]
  rfl

/-- There is a tree below each node. -/
theorem tree?_eq_some (hi : a.slot? i = some s) :
    a.tree? i = some (s.toNode (a.treesOf s.children)) := by
  rw [ha.tree?_eq, hi, Option.map_some]

/-- A tree is below a node. -/
theorem of_tree? (h : a.tree? i = some n) :
    ∃ s, a.slot? i = some s ∧ n = s.toNode (a.treesOf s.children) := by
  rw [ha.tree?_eq] at h
  obtain ⟨s, hs, rfl⟩ := Option.map_eq_some_iff.mp h
  exact ⟨s, hs, rfl⟩

/-- A node has the id of its slot. -/
theorem id_toNode (hi : a.slot? i = some s) (children : List Node) :
    (s.toNode children).id = s.id := by
  rw [Slot.toNode]
  cases hp : s.payload with
  | block => rfl
  | condition c => exact (ha.condition hi hp).2

/-- The nodes of a tree are the node in its slot and those of the trees below its children. -/
theorem nodes_toNode (hi : a.slot? i = some s) :
    (s.toNode (a.treesOf s.children)).nodes =
      s.toNode (a.treesOf s.children) :: (a.treesOf s.children).flatMap Node.nodes := by
  rw [Slot.toNode]
  cases hp : s.payload with
  | block => exact Block.nodes_eq _
  | condition c =>
    rw [(ha.condition hi hp).1]
    rfl

/-- The nodes of the tree below a slot are the trees below that slot and those below it. -/
theorem mem_nodes_iff (hi : a.slot? i = some s) :
    n ∈ (s.toNode (a.treesOf s.children)).nodes ↔ ∃ j, a.IsBelow i j ∧ a.tree? j = some n := by
  refine ha.slot_induction (motive := fun i s ↦ n ∈ (s.toNode (a.treesOf s.children)).nodes ↔
    ∃ j, a.IsBelow i j ∧ a.tree? j = some n) (fun i s hi ih ↦ ?_) i s hi
  rw [ha.nodes_toNode hi, List.mem_cons, List.mem_flatMap]
  constructor
  · rintro (rfl | ⟨m, hm, hn⟩)
    · exact ⟨i, .refl, ha.tree?_eq_some hi⟩
    · obtain ⟨c, hc, hcm⟩ := List.mem_filterMap.mp hm
      obtain ⟨t, ht, rfl⟩ := ha.of_tree? hcm
      obtain ⟨j, hcj, hj⟩ := (ih c hc t ht).mp hn
      exact ⟨j, (ha.isBelow_iff hi).mpr (Or.inr ⟨c, hc, hcj⟩), hj⟩
  · rintro ⟨j, hij, hj⟩
    rcases (ha.isBelow_iff hi).mp hij with rfl | ⟨c, hc, hcj⟩
    · rw [ha.tree?_eq_some hi] at hj
      exact Or.inl (Option.some.inj hj).symm
    · obtain ⟨t, ht, -⟩ := ha.child hi hc
      exact Or.inr ⟨_, List.mem_filterMap.mpr ⟨c, hc, ha.tree?_eq_some ht⟩,
        (ih c hc t ht).mpr ⟨j, hcj, hj⟩⟩

/-- Trees below which nothing lies twice have distinct ids, when each of them has. -/
theorem nodup_ids_treesOf (cs : List Nat) (hnodup : cs.Nodup)
    (happart : ∀ c ∈ cs, ∀ d ∈ cs, ∀ j, a.IsBelow c j → a.IsBelow d j → c = d)
    (hids : ∀ c ∈ cs, ∀ n, a.tree? c = some n → (n.nodes.map Node.id).Nodup) :
    (((a.treesOf cs).flatMap Node.nodes).map Node.id).Nodup := by
  rw [List.map_flatMap, List.nodup_flatMap, treesOf, List.pairwise_filterMap]
  constructor
  · intro n hn
    obtain ⟨c, hc, hn⟩ := List.mem_filterMap.mp hn
    exact hids c hc n hn
  · refine hnodup.imp_of_mem fun {c d} hc hd hne n hn m hm ↦ ?_
    refine List.disjoint_left.mpr fun id hid hid' ↦ ?_
    obtain ⟨x, hx, rfl⟩ := List.mem_map.mp hid
    obtain ⟨y, hy, hyx⟩ := List.mem_map.mp hid'
    obtain ⟨s, hs, rfl⟩ := ha.of_tree? hn
    obtain ⟨t, ht, rfl⟩ := ha.of_tree? hm
    obtain ⟨j, hcj, hj⟩ := (ha.mem_nodes_iff hs).mp hx
    obtain ⟨k, hdk, hk⟩ := (ha.mem_nodes_iff ht).mp hy
    obtain ⟨u, hu, rfl⟩ := ha.of_tree? hj
    obtain ⟨v, hv, rfl⟩ := ha.of_tree? hk
    rw [ha.id_toNode hu, ha.id_toNode hv] at hyx
    exact hne (happart c hc d hd j hcj (ha.eq_of_id hu hv hyx.symm ▸ hdk))

private theorem nodup_ids_tree (hi : a.slot? i = some s) :
    ((s.toNode (a.treesOf s.children)).nodes.map Node.id).Nodup := by
  refine ha.slot_induction (motive := fun _ s ↦
    ((s.toNode (a.treesOf s.children)).nodes.map Node.id).Nodup) (fun i s hi ih ↦ ?_) i s hi
  rw [ha.nodes_toNode hi, List.map_cons, List.nodup_cons]
  constructor
  · intro hmem
    obtain ⟨n, hn, hid⟩ := List.mem_map.mp hmem
    obtain ⟨m, hm, hn⟩ := List.mem_flatMap.mp hn
    obtain ⟨c, hc, hcm⟩ := List.mem_filterMap.mp hm
    obtain ⟨t, ht, rfl⟩ := ha.of_tree? hcm
    obtain ⟨j, hcj, hj⟩ := (ha.mem_nodes_iff ht).mp hn
    obtain ⟨u, hu, rfl⟩ := ha.of_tree? hj
    rw [ha.id_toNode hu, ha.id_toNode hi] at hid
    have := ha.lt_child hi hc
    have := ha.le_of_isBelow hcj
    have := ha.eq_of_id hu hi hid
    omega
  · refine ha.nodup_ids_treesOf s.children (ha.nodup_children hi)
      (fun c hc d hd j ↦ ha.eq_of_isBelow hi hc hd) fun c hc n hn ↦ ?_
    obtain ⟨t, ht, rfl⟩ := ha.of_tree? hn
    exact ih c hc t ht

private theorem eq_of_isBelow_roots {r r' : Nat} (hr : r ∈ a.roots) (hr' : r' ∈ a.roots)
    (h : a.IsBelow r j) (h' : a.IsBelow r' j) : r = r' := by
  have htop {r r'} (hr' : r' ∈ a.roots) (h : a.IsBelow r r') : r = r' := by
    cases h with
    | refl => rfl
    | child hs hp _ =>
      obtain ⟨t, ht, hnone, -⟩ := ha.root hr'
      cases ht.symm.trans hs
      cases hnone.symm.trans hp
  induction h with
  | refl => exact (htop hr h').symm
  | child hs hp h ih =>
    cases h' with
    | refl => exact htop hr' (.child hs hp h)
    | child hs' hp' h' =>
      cases hs'.symm.trans hs
      cases hp'.symm.trans hp
      exact ih h'

/-- Every node lies below a root. -/
theorem exists_root (hi : a.slot? i = some s) : ∃ r ∈ a.roots, a.IsBelow r i := by
  induction i using Nat.strong_induction_on generalizing s with
  | h i ih =>
    cases hp : s.parent with
    | none => exact ⟨i, ha.mem_roots hi hp, .refl⟩
    | some p =>
      obtain ⟨hlt, t, ht, -⟩ := ha.parent hi hp
      obtain ⟨r, hr, hrp⟩ := ih p hlt ht
      exact ⟨r, hr, .child hi hp hrp⟩

/-- The trees below the roots are the blocks of the filter. -/
theorem treesOf_roots : a.treesOf a.roots = a.toBlocks.map .block := by
  rw [toBlocks, List.map_filterMap, treesOf]
  refine List.filterMap_congr fun r hr ↦ ?_
  obtain ⟨s, hs, -, hblock⟩ := ha.root hr
  have htree := ha.tree?_eq_some hs
  cases hp : s.payload with
  | condition c => simp [hp, Payload.isBlock] at hblock
  | block logic name mustHold =>
    simp only [Slot.toNode, hp] at htree
    rw [htree, show a.build? a.slots.size r = _ from htree]
    rfl

/-- The nodes of the filter are those of the trees below the roots. -/
theorem draft_nodes : a.draft.nodes = (a.treesOf a.roots).flatMap Node.nodes := by
  rw [ha.treesOf_roots, List.flatMap_map]
  rfl

/-- The nodes of the filter are the trees below all slots. -/
theorem mem_draft_nodes_iff : n ∈ a.draft.nodes ↔ ∃ i, a.tree? i = some n := by
  rw [ha.draft_nodes, List.mem_flatMap]
  constructor
  · rintro ⟨m, hm, hn⟩
    obtain ⟨r, -, hr⟩ := List.mem_filterMap.mp hm
    obtain ⟨s, hs, rfl⟩ := ha.of_tree? hr
    obtain ⟨j, -, hj⟩ := (ha.mem_nodes_iff hs).mp hn
    exact ⟨j, hj⟩
  · rintro ⟨i, hi⟩
    obtain ⟨s, hs, -⟩ := ha.of_tree? hi
    obtain ⟨r, hr, hri⟩ := ha.exists_root hs
    obtain ⟨t, ht, -⟩ := ha.root hr
    exact ⟨_, List.mem_filterMap.mpr ⟨r, hr, ha.tree?_eq_some ht⟩,
      (ha.mem_nodes_iff ht).mpr ⟨i, hri, hi⟩⟩

/-- The nodes of the filter have distinct ids. -/
theorem nodup_draft_ids : a.draft.ids.Nodup := by
  rw [Draft.ids, ha.draft_nodes]
  refine ha.nodup_ids_treesOf a.roots ha.nodup_roots
    (fun r hr r' hr' j ↦ ha.eq_of_isBelow_roots hr hr') fun r _ n hn ↦ ?_
  obtain ⟨s, hs, rfl⟩ := ha.of_tree? hn
  exact ha.nodup_ids_tree hs

/-- The index knows the ids of the nodes of the filter. -/
theorem mem_draft_ids_iff : id ∈ a.draft.ids ↔ id ∈ a.index.keys := by
  have hfind : id ∈ a.index.keys ↔ ∃ i, a.find? id = some i := by
    rw [Std.HashMap.mem_keys, find?, ← Option.isSome_iff_exists,
      Std.HashMap.isSome_getElem?_iff_mem]
  rw [hfind, Draft.ids, List.mem_map]
  constructor
  · rintro ⟨n, hn, rfl⟩
    obtain ⟨i, hi⟩ := ha.mem_draft_nodes_iff.mp hn
    obtain ⟨s, hs, rfl⟩ := ha.of_tree? hi
    exact ⟨i, by rw [ha.id_toNode hs, ha.find?_id hs]⟩
  · rintro ⟨i, hi⟩
    obtain ⟨s, hs, rfl⟩ := ha.find?_iff.mp hi
    exact ⟨_, ha.mem_draft_nodes_iff.mpr ⟨i, ha.tree?_eq_some hs⟩, ha.id_toNode hs _⟩

/-- The arena has as many nodes as its filter. -/
theorem size_eq : a.size = a.draft.nodes.length := by
  have hperm : a.index.keys.Perm a.draft.ids :=
    (List.perm_ext_iff_of_nodup Std.HashMap.nodup_keys ha.nodup_draft_ids).mpr
      fun id ↦ ha.mem_draft_ids_iff.symm
  rw [size, ← Std.HashMap.length_keys, hperm.length_eq, Draft.ids, List.length_map]

/-- The node with an id is the tree below the slot of that id. -/
theorem draft_find? (id : String) : a.draft.find? id = (a.find? id).bind a.tree? := by
  cases hid : a.find? id with
  | none =>
    refine List.find?_eq_none.mpr fun n hn ↦ ?_
    obtain ⟨i, hi⟩ := ha.mem_draft_nodes_iff.mp hn
    obtain ⟨s, hs, rfl⟩ := ha.of_tree? hi
    rw [ha.id_toNode hs, beq_iff_eq]
    rintro rfl
    rw [ha.find?_id hs] at hid
    cases hid
  | some i =>
    obtain ⟨s, hs, rfl⟩ := ha.find?_iff.mp hid
    have hmem := ha.mem_draft_nodes_iff.mpr ⟨i, ha.tree?_eq_some hs⟩
    have hsome : (a.draft.find? s.id).isSome :=
      List.find?_isSome.mpr ⟨_, hmem, by rw [ha.id_toNode hs, beq_self_eq_true]⟩
    obtain ⟨m, hm⟩ := Option.isSome_iff_exists.mp hsome
    obtain ⟨j, hj⟩ := ha.mem_draft_nodes_iff.mp (List.mem_of_find?_eq_some hm)
    obtain ⟨t, ht, rfl⟩ := ha.of_tree? hj
    have hts := List.find?_some hm
    rw [ha.id_toNode ht, beq_iff_eq] at hts
    rw [hm, Option.bind_some, ← ha.eq_of_id ht hs hts, hj]

end IsLinked

end Arena
end FilterPipeline
