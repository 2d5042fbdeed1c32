import FilterPipeline.Proofs.ArenaEdits
import FilterPipeline.Proofs.ArenaRuns
import FilterPipeline.Proofs.NodeNumbering

/-!
# Loading a filter into an arena and reading it back

Loading adds the nodes of a filter in order, so they get their ids as `Numbering` gives them, and
what is read back is the numbered filter (`Arena.toBlocks_ofBlocks_eq`). It has the nodes of the one
that was loaded, with distinct ids that are not empty; an id that no other node asks for is lost
exactly to a generated one (`Arena.ids_toBlocks_ofBlocks`). What has been read out of an arena is
loaded and read back as it is (`Arena.IsReachable.toBlocks_ofBlocks_toBlocks`).
-/

namespace FilterPipeline
namespace Arena

/-- The nodes of an arena have the ids of a numbering. -/
structure HasNumbering (a : Arena) (u : Numbering) : Prop where
  mem_ids_iff : ∀ id, id ∈ u.ids ↔ id ∈ a.index.keys
  next_eq : u.next = a.nextId

/-- New children stand behind the others of a block; all other nodes stay as they are. -/
structure HasChildren (a : Arena) (p : Nat) (cs : List Nat) (b : Arena) : Prop where
  roots : b.roots = a.roots
  slot? : ∀ i s, a.slot? i = some s →
    b.slot? i = some (if i = p then { s with children := s.children ++ cs } else s)

variable {a b c : Arena} {u : Numbering} {i m p : Nat} {cs ds : List Nat} {s t : Slot}
  {parent : Option Nat} {requested : String} {payload : String → Payload}

section Ids

private theorem hasNumbering_empty : empty.HasNumbering .start where
  mem_ids_iff id := by simp [empty, Numbering.start]
  next_eq := rfl

/-- The id of a further node of the arena is the next one in the numbering. -/
theorem HasNumbering.freshId_eq (h : a.HasNumbering u) (requested : String) :
    a.freshId requested = (u.idFor requested, { a with nextId := (u.add requested).next }) := by
  rw [Arena.freshId_eq, ← h.next_eq, Draft.newId_congr fun id ↦ (h.mem_ids_iff id).symm]
  rfl

/-- A further node of the arena is one in the numbering. -/
theorem HasNumbering.appendFresh (h : a.HasNumbering u) :
    (a.appendFresh parent requested payload).HasNumbering (u.add requested) where
  mem_ids_iff id := by
    rw [mem_keys_appendFresh, h.freshId_eq, Numbering.add, List.mem_append, List.mem_singleton,
      List.mem_cons, h.mem_ids_iff, or_comm]
  next_eq := by rw [nextId_appendFresh, h.freshId_eq]

end Ids

section Children

private theorem HasChildren.refl (a : Arena) (p : Nat) : a.HasChildren p [] a where
  roots := rfl
  slot? i s hi := by rw [List.append_nil, ite_self, hi]

private theorem HasChildren.trans (hab : a.HasChildren p cs b) (hbc : b.HasChildren p ds c) :
    a.HasChildren p (cs ++ ds) c where
  roots := hbc.roots.trans hab.roots
  slot? i s hi := by
    rw [hbc.slot? i _ (hab.slot? i s hi)]
    split
    · rw [List.append_assoc]
    · rfl

private theorem HasChildren.trans_new (hab : a.HasChildren p cs b) (hbc : b.HasChildren m ds c)
    (hm : a.slots.size ≤ m) : a.HasChildren p cs c where
  roots := hbc.roots.trans hab.roots
  slot? i s hi := by
    rw [hbc.slot? i _ (hab.slot? i s hi), if_neg ((lt_size_of_slot? hi).trans_le hm).ne]

private theorem hasChildren_appendFresh (hp : p < a.slots.size) :
    a.HasChildren p [a.slots.size] (a.appendFresh (some p) requested payload) where
  roots := by simp [roots_appendFresh]
  slot? i s hi := by
    rw [slot?_appendFresh fun q hq ↦ Option.some.inj hq ▸ hp, if_neg (lt_size_of_slot? hi).ne, hi]
    by_cases hip : i = p
    · simp [hip]
    · simp [hip, Ne.symm hip]

private theorem HasChildren.tree?_eq (ha : a.IsLinked) (hb : b.IsLinked) (h : a.HasChildren p cs b)
    (hi : a.slot? i = some s) (hpi : p < i) : b.tree? i = a.tree? i := by
  refine ha.slot_induction (motive := fun i _ ↦ p < i → b.tree? i = a.tree? i)
    (fun i s hi ih hpi ↦ ?_) i s hi hpi
  have hslot := h.slot? i s hi
  rw [if_neg hpi.ne'] at hslot
  rw [hb.tree?_eq_some hslot, ha.tree?_eq_some hi]
  congr 2
  refine List.filterMap_congr fun c hc ↦ ?_
  obtain ⟨t, ht, -⟩ := ha.child hi hc
  exact ih c hc t ht (hpi.trans (ha.lt_child hi hc))

/-- Below a block without children there are then the new ones. -/
theorem HasChildren.tree?_block (hb : b.IsLinked) (h : a.HasChildren m cs b) {id : String}
    {logic : Logic} {name : Option String} {mustHold : Bool}
    (hm : a.slot? m = some ⟨id, parent, [], .block logic name mustHold⟩) :
    b.tree? m = some (.block ⟨id, logic, b.treesOf cs, name, mustHold⟩) := by
  have hslot := h.slot? m _ hm
  rw [if_pos rfl] at hslot
  rw [hb.tree?_eq_some hslot]
  rfl

end Children

section Loading

private theorem IsLinked.exists_hasChildren {a : Arena} {p : Nat} {t : Slot} {u : Numbering}
    (ha : a.IsLinked) (hu : a.HasNumbering u) (ht : a.slot? p = some t)
    (hblock : t.payload.isBlock = true) : (nodes : List Node) →
    ∃ cs, a.HasChildren p cs (a.insertChildren p nodes) ∧
      (a.insertChildren p nodes).HasNumbering (Node.numberedAll u nodes).2 ∧
      (a.insertChildren p nodes).treesOf cs = (Node.numberedAll u nodes).1
  | [] => by
    rw [Arena.insertChildren]
    exact ⟨[], HasChildren.refl a p, hu, rfl⟩
  | .condition c :: rest => by
    rw [Arena.insertChildren, insertNode, Node.numberedAll, Node.numbered]
    simp only [attach_insertCondition]
    have hp := lt_size_of_slot? ht
    obtain ⟨hb, hkept, hnew⟩ := ha.appendFresh (some p) c.id (fun id ↦ .condition { c with id })
      ⟨t, ht, hblock⟩ fun id c' h ↦ by cases h; rfl
    obtain ⟨s, hs, -, -, hpayload, -⟩ := hkept p t ht
    have hd := (hb.insertChildren hs (hpayload ▸ hblock) rest).1
    obtain ⟨cs, hcs, hids, htrees⟩ :=
      hb.exists_hasChildren hu.appendFresh hs (hpayload ▸ hblock) rest
    refine ⟨a.slots.size :: cs, (hasChildren_appendFresh hp).trans hcs, hids, ?_⟩
    have htree := hcs.tree?_eq hb hd hnew hp
    rw [hb.tree?_eq_some hnew, hu.freshId_eq] at htree
    rw [treesOf, List.filterMap_cons_some htree]
    exact congrArg _ htrees
  | .block ⟨id, logic, children, name, mustHold⟩ :: rest => by
    rw [Arena.insertChildren, insertNode, Node.numberedAll, Node.numbered, Block.numbered]
    simp only [attach_insertBlock (lt_size_of_slot? ht)]
    have hp := lt_size_of_slot? ht
    obtain ⟨hb, hkept, hnew⟩ := ha.appendFresh (some p) id (fun _ ↦ .block logic name mustHold)
      ⟨t, ht, hblock⟩ fun _ _ h ↦ by cases h
    -- the children of the block come below it, and then the rest beside it
    obtain ⟨hc, hkept'⟩ := hb.insertChildren hnew rfl children
    obtain ⟨ds, hds, hids, htrees⟩ := hb.exists_hasChildren hu.appendFresh hnew rfl children
    have hchild := (hasChildren_appendFresh hp).trans_new hds (Nat.le_refl _)
    have hinner := hds.tree?_block hc hnew
    obtain ⟨v, hv, -⟩ := hkept' _ _ hnew
    obtain ⟨s, hs, -, -, hpayload, -⟩ := hkept.trans hkept' p t ht
    have hd := (hc.insertChildren hs (hpayload ▸ hblock) rest).1
    obtain ⟨cs, hcs, hids', htrees'⟩ := hc.exists_hasChildren hids hs (hpayload ▸ hblock) rest
    refine ⟨a.slots.size :: cs, hchild.trans hcs, hids', ?_⟩
    have htree := hcs.tree?_eq hc hd hv hp
    rw [hinner, htrees, hu.freshId_eq] at htree
    rw [treesOf, List.filterMap_cons_some htree]
    exact congrArg _ htrees'

private theorem IsLinked.toBlocks_pushRoot (ha : a.IsLinked) (hu : a.HasNumbering u) (b : Block) :
    (a.pushRoot b).2.toBlocks = a.toBlocks ++ [(b.numbered u).1] ∧
      (a.pushRoot b).2.HasNumbering (b.numbered u).2 := by
  obtain ⟨id, logic, children, name, mustHold⟩ := b
  rw [pushRoot_eq, Block.numbered]
  obtain ⟨hb, hkept, hnew⟩ := ha.appendFresh none id (fun _ ↦ .block logic name mustHold)
    (fun _ ↦ rfl) fun _ _ h ↦ by cases h
  obtain ⟨hc, -⟩ := hb.insertChildren hnew rfl children
  obtain ⟨cs, hcs, hids, htrees⟩ := hb.exists_hasChildren hu.appendFresh hnew rfl children
  have hroots := hcs.roots.trans roots_appendFresh
  have hslot (i s) (hi : a.slot? i = some s) := hcs.slot? i s <| by
    rw [slot?_appendFresh (fun _ (hq : none = some _) ↦ nomatch hq),
      if_neg (lt_size_of_slot? hi).ne, if_neg nofun, hi]
  have htree := hcs.tree?_block hc hnew
  rw [htrees, hu.freshId_eq] at htree
  refine ⟨ha.toBlocks_push hc hroots (fun i s hi ↦ ?_) htree, hids⟩
  rw [hslot i s hi, if_neg (lt_size_of_slot? hi).ne]

private theorem IsLinked.toBlocks_pushRoots (ha : a.IsLinked) (hu : a.HasNumbering u)
    (blocks : List Block) :
    let b := blocks.foldl (fun a b ↦ (a.pushRoot b).2) a
    b.toBlocks.map .block =
        a.toBlocks.map .block ++ (Node.numberedAll u (blocks.map .block)).1 ∧
      b.HasNumbering (Node.numberedAll u (blocks.map .block)).2 := by
  induction blocks generalizing a u with
  | nil => exact ⟨(List.append_nil _).symm, hu⟩
  | cons b rest ih =>
    obtain ⟨hroots, hids⟩ := ha.toBlocks_pushRoot hu b
    obtain ⟨hblocks, hids'⟩ := ih (ha.pushRoot b).1 hids
    refine ⟨hblocks.trans ?_, hids'⟩
    rw [hroots, List.map_append, List.append_assoc]
    rfl

/-- What is loaded is read back with the ids of its numbering. -/
theorem toBlocks_ofBlocks_eq (blocks : List Block) :
    (ofBlocks blocks).toBlocks.map .block = (Node.numberedAll .start (blocks.map .block)).1 ∧
      (ofBlocks blocks).HasNumbering (Node.numberedAll .start (blocks.map .block)).2 :=
  IsLinked.empty.toBlocks_pushRoots hasNumbering_empty blocks

/-- The nodes of what is loaded ask for ids in order. -/
theorem allIds_toBlocks_ofBlocks (blocks : List Block) :
    Block.allIds (ofBlocks blocks).toBlocks =
      (Numbering.start.addAll (Block.allIds blocks)).ids := by
  have hnumbered := Node.ids_numberedAll .start (blocks.map .block)
  rw [Node.numberedAll_snd, Block.map_id_nodesOf, ← (toBlocks_ofBlocks_eq blocks).1,
    Block.map_id_nodesOf] at hnumbered
  exact hnumbered.symm

/-- What is loaded is read back with nothing but its ids changed. They are distinct then, and none
is empty. An id stays with the first node that asks for it unless it is a generated one whose number
has been passed at a node before. -/
theorem ids_toBlocks_ofBlocks (blocks : List Block) :
    (ofBlocks blocks).toBlocks.map Block.withoutIds = blocks.map Block.withoutIds ∧
      (Block.allIds (ofBlocks blocks).toBlocks).Nodup ∧
      "" ∉ Block.allIds (ofBlocks blocks).toBlocks ∧
      ∀ before id behind, Block.allIds blocks = before ++ id :: behind → id ≠ "" → id ∉ before →
        ((Block.allIds (ofBlocks blocks).toBlocks)[before.length]? = some id ↔
          ∀ n, id = generatedId n → (Numbering.start.addAll before).next ≤ n) := by
  obtain ⟨hblocks, -⟩ := toBlocks_ofBlocks_eq blocks
  have hids := allIds_toBlocks_ofBlocks blocks
  have hsound := Numbering.isSound_start.addAll (Block.allIds blocks)
  refine ⟨?_, hids ▸ hsound.nodup, hids ▸ hsound.notMem_empty, ?_⟩
  · have hshape := Node.withoutIds_numberedAll .start (blocks.map .block)
    rw [← hblocks] at hshape
    rw [Block.map_withoutIds, Block.map_withoutIds] at hshape
    exact List.map_injective_iff.mpr (fun _ _ ↦ Node.block.inj) hshape
  · intro before id behind hsplit hne hbefore
    rw [hids, hsplit]
    exact Numbering.getElem?_addAll_eq_iff behind hne hbefore

/-- A block without an id, and a condition that asks for the first generated one. -/
def unnamedRoot : Block :=
  ⟨"", .and, [.condition { Condition.empty with id := "node-0" }], none, true⟩

/-- The block gets the id that only its condition asks for. -/
theorem not_forall_id_kept :
    ¬ ∀ blocks before id behind, Block.allIds blocks = before ++ id :: behind → id ≠ "" →
      id ∉ before → id ∉ behind →
      (Block.allIds (ofBlocks blocks).toBlocks)[before.length]? = some id := by
  intro h
  have hkept := h [unnamedRoot] [""] "node-0" [] (by decide) (by decide) (by decide) (by decide)
  have hids : Block.allIds (ofBlocks [unnamedRoot]).toBlocks = ["node-0", "node-1"] := by
    rw [allIds_toBlocks_ofBlocks]
    rfl
  rw [hids] at hkept
  exact absurd hkept (by decide)

/-- The nodes that are read out of an arena ask for ids that they can get. -/
theorem IsLinked.admits_toBlocks (ha : a.IsLinked) :
    Numbering.start.Admits ((Node.nodesOf (a.toBlocks.map .block)).map Node.id) := by
  have hids : (Node.nodesOf (a.toBlocks.map .block)).map Node.id = a.draft.ids := by
    rw [Block.map_id_nodesOf]
    rfl
  rw [hids]
  refine ⟨ha.nodup_draft_ids, fun hempty ↦ ?_⟩
  obtain ⟨n, hn, hid⟩ := List.mem_map.mp hempty
  obtain ⟨i, hi⟩ := ha.mem_draft_nodes_iff.mp hn
  obtain ⟨s, hs, rfl⟩ := ha.of_tree? hi
  exact ha.id_ne hs ((ha.id_toNode hs _).symm.trans hid)

/-- What has been read out of an arena is loaded and read back as it is, and no id is generated on
the way. -/
theorem IsReachable.toBlocks_ofBlocks_toBlocks (h : a.IsReachable) :
    (Arena.ofBlocks a.toBlocks).toBlocks = a.toBlocks ∧
      (Arena.ofBlocks a.toBlocks).nextId = 0 := by
  have hadmits := h.isLinked.admits_toBlocks
  obtain ⟨hblocks, hnumbering⟩ := toBlocks_ofBlocks_eq a.toBlocks
  constructor
  · rw [Node.numberedAll_eq_self _ hadmits] at hblocks
    exact List.map_injective_iff.mpr (fun _ _ ↦ Node.block.inj) hblocks
  · rw [← hnumbering.next_eq, Node.numberedAll_snd, hadmits.addAll_eq]
    rfl

/-- The id that was generated for the filler is kept when the filter is loaded again. -/
theorem reload_lone :
    let a := (ofBlocks [lone]).after (.remove "only")
    a.toBlocks = [⟨"root", .and, [Draft.emptyCondition "node-0"], none, true⟩] ∧
      (ofBlocks a.toBlocks).toBlocks = a.toBlocks ∧ (ofBlocks a.toBlocks).nextId = 0 := by
  refine ⟨?_, ((IsReachable.ofBlocks [lone]).after (.remove "only")).toBlocks_ofBlocks_toBlocks⟩
  have hlone : (ofBlocks [lone]).draft = ⟨[lone], 0⟩ := by
    rw [ofBlocks_lone]
    rfl
  have hafter := (isLinked_ofBlocks [lone]).draft_after (.remove "only")
  rw [hlone] at hafter
  exact congrArg Draft.blocks hafter

end Loading

end Arena
end FilterPipeline
