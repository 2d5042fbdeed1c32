import FilterPipeline.Proofs.FilterEdits

/-!
# Ids for the nodes of a filter

The nodes of a filter get their ids one after the other, each node before those below it: a node
gets the id that it asks for, unless that is empty or taken, and else a generated one. Main
statements: the ids are distinct and none is empty (`Numbering.IsSound.addAll`), nothing but ids is
changed (`Node.withoutIds_numberedAll`), and an id that no other node asks for is lost exactly to an
earlier generated one (`Numbering.getElem?_addAll_eq_iff`).
-/

namespace FilterPipeline

open Arena (generatedId)

/-- The ids that nodes have got, in order, and the number in the next generated one. -/
structure Numbering where
  ids : List String
  next : Nat

namespace Numbering

/-- No node has got an id. -/
def start : Numbering := ⟨[], 0⟩

/-- The id that a further node gets when it asks for one. -/
def idFor (u : Numbering) (requested : String) : String := (Draft.newId u.ids u.next requested).1

/-- A further node gets an id. -/
def add (u : Numbering) (requested : String) : Numbering :=
  ⟨u.ids ++ [u.idFor requested], (Draft.newId u.ids u.next requested).2⟩

/-- Further nodes get ids, one after the other. -/
def addAll (u : Numbering) (requested : List String) : Numbering := requested.foldl add u

end Numbering

mutual

/-- A block with the ids that it and the nodes below it get, and the numbering with these. -/
def Block.numbered (u : Numbering) : Block → Block × Numbering
  | ⟨id, logic, children, name, mustHold⟩ =>
    let below := Node.numberedAll (u.add id) children
    (⟨u.idFor id, logic, below.1, name, mustHold⟩, below.2)

/-- Several nodes with the ids that they and the nodes below them get. -/
def Node.numberedAll (u : Numbering) : List Node → List Node × Numbering
  | [] => ([], u)
  | n :: rest =>
    let first := Node.numbered u n
    let others := Node.numberedAll first.2 rest
    (first.1 :: others.1, others.2)

/-- A node with the ids that it and the nodes below it get. -/
def Node.numbered (u : Numbering) : Node → Node × Numbering
  | .block b =>
    let numbered := Block.numbered u b
    (.block numbered.1, numbered.2)
  | .condition c => (.condition { c with id := u.idFor c.id }, u.add c.id)

end

/-- The ids of all nodes of a filter, in order. -/
def Block.allIds (blocks : List Block) : List String := (blocks.flatMap Block.nodes).map Node.id

/-- The block with an empty id, and so all nodes below it. -/
def Block.withoutIds : Block → Block :=
  rewrite (fun b ↦ { b with id := "" }) fun c ↦ { c with id := "" }

/-- Several nodes with empty ids, and so all nodes below them. -/
def Node.withoutIds : List Node → List Node :=
  rewriteAll (fun b ↦ { b with id := "" }) fun c ↦ { c with id := "" }

namespace Numbering

variable {u : Numbering} {requested : List String} {id : String}

/-- Without requests no id is added. -/
@[simp] theorem addAll_nil (u : Numbering) : u.addAll [] = u := rfl

/-- Requests are met one by one. -/
@[simp] theorem addAll_cons (u : Numbering) (id : String) (requested : List String) :
    u.addAll (id :: requested) = (u.add id).addAll requested :=
  rfl

/-- Nodes get ids after those before them. -/
theorem addAll_append (u : Numbering) (before behind : List String) :
    u.addAll (before ++ behind) = (u.addAll before).addAll behind :=
  List.foldl_append

/-- A node gets the id that it asks for when that is neither empty nor taken. -/
theorem idFor_eq_iff : u.idFor id = id ↔ id ≠ "" ∧ id ∉ u.ids := by
  constructor
  · intro h
    rw [← h]
    exact Draft.newId_spec u.ids u.next id
  · rintro ⟨hne, hfree⟩
    rw [idFor, Draft.newId, if_neg (not_or.mpr ⟨hne, hfree⟩)]

/-- Nodes ask for ids that are distinct, new and not empty. -/
def Admits (u : Numbering) (requested : List String) : Prop :=
  (u.ids ++ requested).Nodup ∧ "" ∉ requested

/-- A node gets the id that it asks for when that is neither empty nor taken. -/
theorem Admits.idFor_eq (h : u.Admits (id :: requested)) : u.idFor id = id := by
  refine idFor_eq_iff.mpr ⟨fun hid ↦ h.2 (hid ▸ List.mem_cons_self), fun hmem ↦ ?_⟩
  exact (List.nodup_append.mp h.1).2.2 id hmem id List.mem_cons_self rfl

/-- Nodes that get the ids they ask for use up no number. -/
theorem Admits.addAll_eq (h : u.Admits requested) :
    u.addAll requested = ⟨u.ids ++ requested, u.next⟩ := by
  induction requested generalizing u with
  | nil => rw [addAll_nil, List.append_nil]
  | cons id requested ih =>
    have hadd : u.add id = ⟨u.ids ++ [id], u.next⟩ := by
      have hfree := idFor_eq_iff.mp h.idFor_eq
      rw [add, h.idFor_eq, Draft.newId, if_neg (not_or.mpr hfree)]
    obtain ⟨hnodup, hne⟩ := h
    rw [addAll_cons, hadd, ih, List.append_assoc, List.singleton_append]
    refine ⟨?_, fun hmem ↦ hne (List.mem_cons_of_mem _ hmem)⟩
    rwa [List.append_assoc, List.singleton_append]

/-- What several nodes ask for is asked for by the first of them and then by the others. -/
theorem Admits.append {before behind : List String} (h : u.Admits (before ++ behind)) :
    u.Admits before ∧ (u.addAll before).Admits behind := by
  obtain ⟨hnodup, hne⟩ := h
  rw [← List.append_assoc] at hnodup
  have hbefore : u.Admits before :=
    ⟨(List.nodup_append.mp hnodup).1, fun hmem ↦ hne (List.mem_append_left _ hmem)⟩
  refine ⟨hbefore, ?_, fun hmem ↦ hne (List.mem_append_right _ hmem)⟩
  rwa [hbefore.addAll_eq]

private theorem exists_ids_addAll (u : Numbering) (requested : List String) :
    ∃ ids, (u.addAll requested).ids = u.ids ++ ids ∧ ids.length = requested.length := by
  induction requested generalizing u with
  | nil => exact ⟨[], (List.append_nil _).symm, rfl⟩
  | cons id requested ih =>
    obtain ⟨ids, hids, hlength⟩ := ih (u.add id)
    refine ⟨u.idFor id :: ids, ?_, congrArg Nat.succ hlength⟩
    rw [addAll_cons, hids, add, List.append_assoc, List.singleton_append]

/-- The ids are distinct, none is empty, and all generated ids with smaller numbers are taken. -/
structure IsSound (u : Numbering) : Prop where
  nodup : u.ids.Nodup
  notMem_empty : "" ∉ u.ids
  mem_generated : ∀ n < u.next, generatedId n ∈ u.ids

/-- At the start no id is taken, so that the numbering is sound. -/
theorem isSound_start : start.IsSound where
  nodup := List.nodup_nil
  notMem_empty := List.not_mem_nil
  mem_generated _ h := absurd h (Nat.not_lt_zero _)

private theorem IsSound.add (h : u.IsSound) (id : String) : (u.add id).IsSound where
  nodup := by
    obtain ⟨-, hfree⟩ := Draft.newId_spec u.ids u.next id
    rw [Numbering.add, List.nodup_append]
    refine ⟨h.nodup, List.nodup_singleton _, fun x hx y hy hxy ↦ ?_⟩
    rw [List.mem_singleton.mp hy] at hxy
    subst hxy
    exact hfree hx
  notMem_empty := by
    obtain ⟨hne, -⟩ := Draft.newId_spec u.ids u.next id
    rw [Numbering.add, List.mem_append, List.mem_singleton, not_or]
    exact ⟨h.notMem_empty, hne.symm⟩
  mem_generated n hn := by
    rw [Numbering.add, List.mem_append, List.mem_singleton]
    by_cases hrequested : id = "" ∨ id ∈ u.ids
    · obtain ⟨-, hpassed, -⟩ := Draft.freeNumber_spec u.ids u.next
      simp only [Numbering.add, Draft.newId, if_pos hrequested] at hn
      rcases Nat.lt_or_ge n u.next with hlt | hge
      · exact Or.inl (h.mem_generated n hlt)
      · rcases Nat.lt_or_eq_of_le (Nat.le_of_lt_succ hn) with hlt | heq
        · exact Or.inl (hpassed n hge hlt)
        · refine Or.inr ?_
          rw [idFor, Draft.newId, if_pos hrequested, heq]
    · simp only [Numbering.add, Draft.newId, if_neg hrequested] at hn
      exact Or.inl (h.mem_generated n hn)

/-- Ids stay distinct whatever is asked for. -/
theorem IsSound.addAll (h : u.IsSound) (requested : List String) :
    (u.addAll requested).IsSound := by
  induction requested generalizing u with
  | nil => exact h
  | cons id requested ih => exact ih (h.add id)

private theorem next_le_add (u : Numbering) (id : String) : u.next ≤ (u.add id).next := by
  rw [add, Draft.newId]
  split
  · exact Nat.le_succ_of_le (Draft.freeNumber_spec u.ids u.next).1
  · exact Nat.le_refl _

private theorem mem_or_of_mem_addAll (requested : List String)
    (hid : id ∈ (start.addAll requested).ids) :
    id ∈ requested ∨ ∃ n < (start.addAll requested).next, id = generatedId n := by
  induction requested using List.reverseRecOn with
  | nil => cases hid
  | append_singleton requested last ih =>
    rw [addAll_append, addAll_cons, addAll_nil] at hid ⊢
    generalize start.addAll requested = u at ih hid ⊢
    rw [add, List.mem_append, List.mem_singleton] at hid
    rcases hid with hid | rfl
    · rcases ih hid with hmem | ⟨n, hn, rfl⟩
      · exact Or.inl (List.mem_append_left _ hmem)
      · exact Or.inr ⟨n, Nat.lt_of_lt_of_le hn (u.next_le_add last), rfl⟩
    · rw [idFor, add, Draft.newId]
      split
      · exact Or.inr ⟨_, Nat.lt_succ_self _, rfl⟩
      · exact Or.inl (List.mem_append_right _ (List.mem_singleton_self _))

/-- An id that no node before asks for is taken exactly when it has been generated. -/
theorem mem_addAll_iff (hid : id ∉ requested) :
    id ∈ (start.addAll requested).ids ↔
      ∃ n < (start.addAll requested).next, id = generatedId n := by
  refine ⟨fun h ↦ (mem_or_of_mem_addAll requested h).resolve_left hid, ?_⟩
  rintro ⟨n, hn, rfl⟩
  exact (isSound_start.addAll requested).mem_generated n hn

/-- A node whose id no node before it asks for gets that id unless it is empty or has been generated
for one of them. -/
theorem getElem?_addAll_eq_iff {before : List String} (behind : List String) (hne : id ≠ "")
    (hid : id ∉ before) :
    (start.addAll (before ++ id :: behind)).ids[before.length]? = some id ↔
      ∀ n, id = generatedId n → (start.addAll before).next ≤ n := by
  obtain ⟨front, hfront, hlength⟩ := start.exists_ids_addAll before
  obtain ⟨rest, hrest, -⟩ := ((start.addAll before).add id).exists_ids_addAll behind
  have hget : (start.addAll (before ++ id :: behind)).ids[before.length]? =
      some ((start.addAll before).idFor id) := by
    rw [addAll_append, addAll_cons, hrest, add, hfront]
    simp [start, hlength]
  rw [hget, Option.some_inj, idFor_eq_iff, mem_addAll_iff hid, and_iff_right hne]
  push Not
  exact ⟨fun h n hn ↦ not_lt.mp fun hlt ↦ h n hlt hn,
    fun h n hlt hn ↦ absurd hlt (h n hn).not_gt⟩

end Numbering

section Trees

/-- The nodes of blocks are those of a filter. -/
theorem Block.map_id_nodesOf (blocks : List Block) :
    (Node.nodesOf (blocks.map .block)).map Node.id = Block.allIds blocks := by
  rw [Node.nodesOf_eq, List.flatMap_map]
  rfl

/-- Empty ids for blocks are empty ids for the nodes that they are. -/
theorem Block.map_withoutIds (blocks : List Block) :
    Node.withoutIds (blocks.map .block) = (blocks.map Block.withoutIds).map .block := by
  rw [Node.withoutIds, Node.rewriteAll_eq, List.map_map, List.map_map]
  rfl

mutual

/-- A block is numbered as its nodes ask for ids in order. -/
theorem Block.numbered_snd (u : Numbering) : (b : Block) →
    (b.numbered u).2 = u.addAll (b.nodes.map Node.id)
  | ⟨id, logic, children, name, mustHold⟩ => by
    rw [Block.numbered, Block.nodes]
    exact Node.numberedAll_snd (u.add id) children

/-- Several nodes are numbered as they and those below them ask for ids in order. -/
theorem Node.numberedAll_snd (u : Numbering) : (nodes : List Node) →
    (Node.numberedAll u nodes).2 = u.addAll ((Node.nodesOf nodes).map Node.id)
  | [] => rfl
  | n :: rest => by
    rw [Node.numberedAll, Node.nodesOf, List.map_append, Numbering.addAll_append,
      ← Node.numbered_snd u n]
    exact Node.numberedAll_snd _ rest

/-- A node is numbered as it and those below it ask for ids in order. -/
theorem Node.numbered_snd (u : Numbering) : (n : Node) →
    (n.numbered u).2 = u.addAll (n.nodes.map Node.id)
  | .block b => by
    rw [Node.numbered, Node.nodes]
    exact Block.numbered_snd u b
  | .condition c => rfl

end

mutual

/-- The nodes of a numbered block have the ids that have come to the numbering. -/
theorem Block.ids_numbered (u : Numbering) : (b : Block) →
    (b.numbered u).2.ids = u.ids ++ (b.numbered u).1.nodes.map Node.id
  | ⟨id, logic, children, name, mustHold⟩ => by
    rw [Block.numbered, Block.nodes]
    exact (Node.ids_numberedAll (u.add id) children).trans (List.append_assoc _ _ _)

/-- Numbered nodes have the ids that have come to the numbering. -/
theorem Node.ids_numberedAll (u : Numbering) : (nodes : List Node) →
    (Node.numberedAll u nodes).2.ids =
      u.ids ++ (Node.nodesOf (Node.numberedAll u nodes).1).map Node.id
  | [] => (List.append_nil _).symm
  | n :: rest => by
    simp only [Node.numberedAll, Node.nodesOf]
    rw [Node.ids_numberedAll _ rest, Node.ids_numbered u n, List.map_append, List.append_assoc]

/-- A numbered node and those below it have the ids that have come to the numbering. -/
theorem Node.ids_numbered (u : Numbering) : (n : Node) →
    (n.numbered u).2.ids = u.ids ++ (n.numbered u).1.nodes.map Node.id
  | .block b => by
    rw [Node.numbered, Node.nodes]
    exact Block.ids_numbered u b
  | .condition c => rfl

end

mutual

/-- Numbering a block changes nothing but ids. -/
theorem Block.withoutIds_numbered (u : Numbering) : (b : Block) →
    (b.numbered u).1.withoutIds = b.withoutIds
  | ⟨id, logic, children, name, mustHold⟩ => by
    have hchildren := Node.withoutIds_numberedAll (u.add id) children
    rw [Node.withoutIds] at hchildren
    simp only [Block.withoutIds, Block.numbered, Block.rewrite, hchildren]

/-- Numbering nodes changes nothing but ids. -/
theorem Node.withoutIds_numberedAll (u : Numbering) : (nodes : List Node) →
    Node.withoutIds (Node.numberedAll u nodes).1 = Node.withoutIds nodes
  | [] => rfl
  | .block b :: rest => by
    have hblock := Block.withoutIds_numbered u b
    have hrest := Node.withoutIds_numberedAll (b.numbered u).2 rest
    simp only [Node.withoutIds, Block.withoutIds] at hblock hrest ⊢
    simp only [Node.numberedAll, Node.numbered, Node.rewriteAll, Node.rewrite, hblock, hrest]
  | .condition c :: rest => by
    have hrest := Node.withoutIds_numberedAll (u.add c.id) rest
    simp only [Node.withoutIds] at hrest ⊢
    simp only [Node.numberedAll, Node.numbered, Node.rewriteAll, Node.rewrite, hrest]

end

mutual

/-- A block whose nodes get the ids that they have is left as it is. -/
theorem Block.numbered_eq_self {u : Numbering} : (b : Block) → u.Admits (b.nodes.map Node.id) →
    (b.numbered u).1 = b
  | ⟨id, logic, children, name, mustHold⟩, h => by
    rw [Block.nodes, List.map_cons] at h
    have hid : u.idFor id = id := h.idFor_eq
    have hbelow := (@Numbering.Admits.append u [id] _ h).2
    have hchildren := Node.numberedAll_eq_self children hbelow
    simp only [Block.numbered, hid]
    exact congrArg (Block.mk id logic · name mustHold) hchildren

/-- Nodes that get the ids they have are left as they are. -/
theorem Node.numberedAll_eq_self {u : Numbering} : (nodes : List Node) →
    u.Admits ((Node.nodesOf nodes).map Node.id) → (Node.numberedAll u nodes).1 = nodes
  | [], _ => rfl
  | n :: rest, h => by
    rw [Node.nodesOf, List.map_append] at h
    obtain ⟨hn, hrest⟩ := h.append
    rw [← Node.numbered_snd u n] at hrest
    rw [Node.numberedAll]
    exact congrArg₂ List.cons (Node.numbered_eq_self n hn) (Node.numberedAll_eq_self rest hrest)

/-- A node that gets the id it has is left as it is, if those below it do. -/
theorem Node.numbered_eq_self {u : Numbering} : (n : Node) → u.Admits (n.nodes.map Node.id) →
    (n.numbered u).1 = n
  | .block b, h => by
    rw [Node.nodes] at h
    exact congrArg Node.block (Block.numbered_eq_self b h)
  | .condition ⟨id, _, _, _, _⟩, h => by
    rw [Node.nodes, List.map_singleton] at h
    have hid : u.idFor id = id := h.idFor_eq
    rw [Node.numbered, hid]

end

end Trees

end FilterPipeline
