import FilterPipeline.Filter.Arena
import FilterPipeline.Proofs.ArenaRewrites
import FilterPipeline.Proofs.FilterEdits

/-!
# Edits of an arena are edits of its filter

`Arena.edit` is one whole edit of an arena. It finds its node when the filter has that node, tells
the same new id, and leaves the filter that `Draft.edit` makes of the old one: the square is shown
for each kind of edit, and `Arena.IsLinked.follows` has them all.
-/

namespace FilterPipeline

private theorem Payload.exists_block {payload : Payload} (h : payload.isBlock = true) :
    ∃ logic name mustHold, payload = .block logic name mustHold := by
  cases payload with
  | block logic name mustHold => exact ⟨logic, name, mustHold, rfl⟩
  | condition => cases h

/-- The slot with another payload, if it holds a block. -/
def Slot.withBlock (payload : Logic → Option String → Bool → Payload) (s : Slot) : Slot :=
  match s.payload with
  | .block logic name mustHold => { s with payload := payload logic name mustHold }
  | .condition _ => s

private theorem Slot.withBlock_links (payload : Logic → Option String → Bool → Payload) (s : Slot) :
    (s.withBlock payload).id = s.id ∧ (s.withBlock payload).parent = s.parent ∧
      (s.withBlock payload).children = s.children := by
  rw [Slot.withBlock]
  cases s.payload <;> exact ⟨rfl, rfl, rfl⟩

namespace Arena

variable {a b : Arena} {i p : Nat} {s t : Slot}

/-- An edit of an arena: the id of an added node, and the arena after the edit. -/
def edit (a : Arena) : Edit → Except Fault (Option String × Arena)
  | .addCondition parent c => do
    let (id, b) ← a.addCondition parent c
    .ok (some id, b)
  | .addBlock parent logic => do
    let (id, b) ← a.addBlock parent logic
    .ok (some id, b)
  | .addRoot logic => .ok (some (a.addRoot logic).1, (a.addRoot logic).2)
  | .updateCondition id change => do .ok (none, ← a.updateCondition id change)
  | .setLogic id logic => do .ok (none, ← a.setLogic id logic)
  | .setName id name mustHold => do .ok (none, ← a.setName id name mustHold)
  | .remove id => do .ok (none, ← a.remove id)

section Checks

/-- The slot of a node is found when the filter has a node with the id. -/
theorem IsLinked.node?_cases (ha : a.IsLinked) (id : String) :
    (∃ i s, a.node? id = .ok (i, s) ∧ a.slot? i = some s ∧ s.id = id ∧
      a.draft.find? id = some (s.toNode (a.treesOf s.children))) ∨
    (a.node? id = .error (.nodeNotFound id) ∧ a.find? id = none ∧ a.draft.find? id = none) := by
  rw [ha.draft_find?]
  cases hid : a.find? id with
  | none => exact Or.inr ⟨by rw [node?, hid], rfl, rfl⟩
  | some i =>
    obtain ⟨s, hs, hsid⟩ := ha.find?_iff.mp hid
    refine Or.inl ⟨i, s, ?_, hs, hsid, ?_⟩
    · rw [node?, hid]
      simp only [hs]
    · rw [Option.bind_some, ha.tree?_eq_some hs]

/-- The slot of a block is found when the filter has a block with the id. -/
theorem IsLinked.blockSlot?_cases (ha : a.IsLinked) (id : String) :
    (∃ i s, a.blockSlot? id = .ok i ∧ a.draft.checkBlock id = .ok () ∧ a.slot? i = some s ∧
      s.id = id ∧ s.payload.isBlock = true) ∨
    ∃ fault, a.blockSlot? id = .error fault ∧ a.draft.checkBlock id = .error fault := by
  rcases ha.node?_cases id with ⟨i, s, hnode, hs, hsid, hfind⟩ | ⟨hnode, -, hfind⟩
  · cases hpayload : s.payload with
    | block =>
      refine Or.inl ⟨i, s, ?_, ?_, hs, hsid, by rw [hpayload]; rfl⟩
      · simp [blockSlot?, hnode, hpayload, bind, Except.bind]
      · simp [Draft.checkBlock, hfind, Slot.toNode, hpayload]
    | condition =>
      refine Or.inr ⟨.notABlock id, ?_, ?_⟩
      · simp [blockSlot?, hnode, hpayload, bind, Except.bind]
      · simp [Draft.checkBlock, hfind, Slot.toNode, hpayload]
  · refine Or.inr ⟨.nodeNotFound id, ?_, ?_⟩
    · simp [blockSlot?, hnode, bind, Except.bind]
    · simp [Draft.checkBlock, hfind]

end Checks

section Additions

variable {parent : Option Nat} {j : Nat} {requested : String} {payload : String → Payload}

/-- An id for a new node is a new id beside those of the filter. -/
theorem IsLinked.freshId_eq (ha : a.IsLinked) (requested : String) :
    a.freshId requested = ((Draft.newId a.draft.ids a.nextId requested).1,
      { a with nextId := (Draft.newId a.draft.ids a.nextId requested).2 }) := by
  rw [Arena.freshId_eq, Draft.newId_congr fun _ ↦ ha.mem_draft_ids_iff]

/-- What an added node changes in the slots. -/
theorem slot?_appendFresh (hlt : ∀ p, parent = some p → p < a.slots.size) :
    (a.appendFresh parent requested payload).slot? j =
      if j = a.slots.size then
        some ⟨(a.freshId requested).1, parent, [], payload (a.freshId requested).1⟩
      else if parent = some j then
        (a.slot? j).map fun s ↦ { s with children := s.children ++ [a.slots.size] }
      else a.slot? j := by
  rw [appendFresh, slot?_appendNode (by rwa [size_freshId]), size_freshId, freshId_snd]
  rfl

/-- An added node leaves the others in place. -/
theorem isFollowedBy_appendFresh (hlt : ∀ p, parent = some p → p < a.slots.size) :
    a.IsFollowedBy (a.appendFresh parent requested payload) where
  size_le := by
    rw [appendFresh, size_appendNode, size_freshId]
    exact Nat.le_succ _
  of_slot? {j t} hj ht := by
    rw [slot?_appendFresh hlt, if_neg hj.ne] at ht
    split at ht
    · obtain ⟨s, hs, rfl⟩ := Option.map_eq_some_iff.mp ht
      exact ⟨s, hs, rfl, rfl, fun _ _ ↦ List.append_ne_nil_of_right_ne_nil _ (List.cons_ne_nil _ _)⟩
    · exact ⟨t, ht, rfl, rfl, fun _ hne ↦ hne⟩

/-- A node that is added without parent is a root. -/
theorem roots_appendFresh :
    (a.appendFresh parent requested payload).roots =
      a.roots ++ if parent.isNone then [a.slots.size] else [] := by
  rw [appendFresh, roots_appendNode, size_freshId, freshId_snd]

/-- Adding a node takes a number only for its id. -/
theorem nextId_appendFresh :
    (a.appendFresh parent requested payload).nextId = (a.freshId requested).2.nextId := by
  cases parent <;> rfl

/-- A new node takes one new slot. -/
@[simp] theorem size_appendFresh :
    (a.appendFresh parent requested payload).slots.size = a.slots.size + 1 := by
  rw [appendFresh, size_appendNode, size_freshId]

/-- The index knows the id of an added node too. -/
theorem mem_keys_appendFresh {id : String} :
    id ∈ (a.appendFresh parent requested payload).index.keys ↔
      id ∈ (a.freshId requested).1 :: a.index.keys := by
  have hindex : (a.appendFresh parent requested payload).index =
      (a.freshId requested).2.index.insert (a.freshId requested).1
        (a.freshId requested).2.slots.size := by
    cases parent <;> rfl
  rw [hindex, freshId_snd, Std.HashMap.mem_keys, Std.HashMap.mem_insert, List.mem_cons,
    Std.HashMap.mem_keys, beq_iff_eq, eq_comm]

/-- A block gets an empty condition with a new id as its last child. -/
def fill (a : Arena) (p : Nat) : Arena :=
  a.appendFresh (some p) Condition.empty.id fun id ↦ .condition { Condition.empty with id }

/-- A condition with a new id as the last child of a block. -/
theorem IsLinked.appendCondition (ha : a.IsLinked) (hp : a.slot? p = some t)
    (hblock : t.payload.isBlock = true) (c : Condition) :
    let b := a.appendFresh (some p) c.id fun id ↦ .condition { c with id }
    let fresh := Draft.newId a.draft.ids a.nextId c.id
    b.IsLinked ∧ a.IsFollowedBy b ∧ b.idOf a.slots.size = fresh.1 ∧
      b.draft = ⟨a.toBlocks.map (Block.append t.id (.condition { c with id := fresh.1 })),
        fresh.2⟩ := by
  obtain ⟨hb, -, hnew⟩ := ha.appendFresh (some p) c.id (fun id ↦ .condition { c with id })
    ⟨t, hp, hblock⟩ fun id c' h ↦ by cases h; rfl
  have hlt := lt_size_of_slot? hp
  have hid : (a.freshId c.id).1 = (Draft.newId a.draft.ids a.nextId c.id).1 := by
    rw [ha.freshId_eq]
  have htree := hb.tree?_eq_some hnew
  rw [hid] at htree
  refine ⟨hb, isFollowedBy_appendFresh fun _ h ↦ Option.some.inj h ▸ hlt, ?_, ?_⟩
  · rw [idOf, hnew, hid]
    rfl
  · have hblocks := ha.toBlocks_append hb hp hblock (by rw [roots_appendFresh]; simp)
      (fun i s hi ↦ by
        rw [slot?_appendFresh fun _ h ↦ Option.some.inj h ▸ hlt, if_neg (lt_size_of_slot? hi).ne,
          hi]
        by_cases hip : i = p
        · simp [hip]
        · simp [hip, Ne.symm hip]) htree
    rw [draft, hblocks, nextId_appendFresh, ha.freshId_eq]
    rfl

/-- A new block without its condition, as the last child of a block or as the last root. -/
def appendHollow (a : Arena) (parent : Option Nat) (logic : Logic) : Arena :=
  a.appendFresh parent "" fun _ ↦ .block logic none true

/-- The condition of a new block is added to it. -/
theorem insertChildren_newBlock (logic : Logic) :
    (a.appendHollow parent logic).insertChildren a.slots.size (newBlock logic).children =
      (a.appendHollow parent logic).fill a.slots.size := by
  simp only [newBlock, Arena.insertChildren, insertNode, attach_insertCondition]
  rfl

private theorem attach_insertBlock_newBlock (hp : p < a.slots.size) (logic : Logic) :
    (a.insertBlock (some p) (newBlock logic)).2.attach p
        (a.insertBlock (some p) (newBlock logic)).1 =
      (a.appendHollow (some p) logic).fill a.slots.size := by
  rw [← insertChildren_newBlock, appendHollow]
  exact attach_insertBlock hp "" logic (newBlock logic).children none true

private theorem pushRoot_newBlock (logic : Logic) :
    (a.pushRoot (newBlock logic)).2 = (a.appendHollow none logic).fill a.slots.size := by
  rw [← insertChildren_newBlock, appendHollow]
  exact pushRoot_eq "" logic (newBlock logic).children none true

private theorem IsLinked.newBlock_eq (ha : a.IsLinked) (parent : Option Nat) (logic : Logic) :
    a.draft.newBlock logic =
      (⟨(a.freshId "").1, logic,
        [Draft.emptyCondition ((a.appendHollow parent logic).freshId "").1], none, true⟩,
        ((a.appendHollow parent logic).freshId "").2.nextId) := by
  have hnext : (a.appendHollow parent logic).nextId = (Draft.newId a.draft.ids a.nextId "").2 := by
    rw [appendHollow, nextId_appendFresh, ha.freshId_eq]
  have hids (id : String) : id ∈ (a.appendHollow parent logic).index.keys ↔
      id ∈ (Draft.newId a.draft.ids a.nextId "").1 :: a.draft.ids := by
    rw [appendHollow, mem_keys_appendFresh, ha.freshId_eq, List.mem_cons, List.mem_cons,
      ha.mem_draft_ids_iff]
  rw [Arena.freshId_eq (a.appendHollow parent logic), Draft.newId_congr hids, hnext, ha.freshId_eq]
  rfl

/-- A new block with its one condition, as the last child of a block or as the last root. -/
theorem IsLinked.fill_appendHollow (ha : a.IsLinked) (parent : Option Nat)
    (hplace : ∀ p, parent = some p → ∃ t, a.slot? p = some t ∧ t.payload.isBlock = true)
    (logic : Logic) :
    let b := (a.appendHollow parent logic).fill a.slots.size
    b.IsLinked ∧ a.IsFollowedBy b ∧
      b.tree? a.slots.size = some (.block (a.draft.newBlock logic).1) ∧
      b.idOf a.slots.size = (a.draft.newBlock logic).1.id ∧
      b.nextId = (a.draft.newBlock logic).2 ∧
      b.roots = a.roots ++ (if parent.isNone then [a.slots.size] else []) ∧
      ∀ i s, a.slot? i = some s → b.slot? i =
        some (if parent = some i then { s with children := s.children ++ [a.slots.size] }
          else s) := by
  have hlt (p) (hp : parent = some p) : p < a.slots.size := by
    obtain ⟨t, ht, -⟩ := hplace p hp
    exact lt_size_of_slot? ht
  obtain ⟨hmid, -, hblock⟩ := ha.appendFresh parent "" (fun _ ↦ .block logic none true)
    (by cases parent with
      | none => exact fun _ ↦ rfl
      | some p => exact hplace p rfl) fun _ _ h ↦ by cases h
  rw [← appendHollow] at hmid hblock
  have hnew := ha.newBlock_eq parent logic
  have hsize : (a.appendHollow parent logic).slots.size = a.slots.size + 1 := size_appendFresh
  have hltMid (p) (hp : some a.slots.size = some p) :
      p < (a.appendHollow parent logic).slots.size := by
    have := Option.some.inj hp
    omega
  obtain ⟨hlinked, -, hleaf⟩ := hmid.appendFresh (some a.slots.size) Condition.empty.id
    (fun id ↦ .condition { Condition.empty with id }) ⟨_, hblock, rfl⟩
    fun id c' h ↦ by cases h; rfl
  rw [← fill] at hlinked hleaf
  have htop : ((a.appendHollow parent logic).fill a.slots.size).slot? a.slots.size =
      some ⟨(a.freshId "").1, parent, [(a.appendHollow parent logic).slots.size],
        .block logic none true⟩ := by
    rw [fill, slot?_appendFresh hltMid, if_neg (by omega), if_pos rfl, hblock]
    rfl
  refine ⟨hlinked, (isFollowedBy_appendFresh hlt).trans (isFollowedBy_appendFresh hltMid), ?_, ?_,
    ?_, ?_, fun i s hi ↦ ?_⟩
  · rw [hlinked.tree?_eq_some htop, hnew]
    simp [treesOf, hlinked.tree?_eq_some hleaf, Slot.toNode, Draft.emptyCondition, Condition.empty]
  · rw [idOf, htop, hnew]
    rfl
  · rw [fill, nextId_appendFresh, hnew]
    rfl
  · rw [fill, roots_appendFresh, appendHollow, roots_appendFresh]
    simp
  · have hi' := lt_size_of_slot? hi
    rw [fill, slot?_appendFresh hltMid, if_neg (by omega), if_neg (by simpa using hi'.ne'),
      appendHollow, slot?_appendFresh hlt, if_neg hi'.ne, hi]
    split <;> rfl

end Additions

section Squares

/-- An edit of the arena is the edit of its filter: both tell the same id and leave the same filter,
with links that fit together, or both fail alike. -/
def Follows (a : Arena) (e : Edit) : Prop :=
  (∃ told b, a.edit e = .ok (told, b) ∧ a.draft.edit e = .ok (told, b.draft) ∧ b.IsLinked ∧
    a.IsFollowedBy b) ∨
    ∃ fault, a.edit e = .error fault ∧ a.draft.edit e = .error fault

private theorem insertCondition_fst (a : Arena) (parent : Option Nat) (c : Condition) :
    (a.insertCondition parent c).1 = a.slots.size :=
  size_freshId c.id

/-- A new block is in the first slot behind the others. -/
theorem insertBlock_fst (a : Arena) (parent : Option Nat) (b : Block) :
    (a.insertBlock parent b).1 = a.slots.size := by
  cases b
  rw [insertBlock]
  exact size_freshId _

/-- The filter of an arena and its next number. -/
theorem draft_eq {blocks : List Block} {next : Nat} (hblocks : a.toBlocks = blocks)
    (hnext : a.nextId = next) : a.draft = ⟨blocks, next⟩ := by
  rw [draft, hblocks, hnext]

private theorem pushRoot_fst (a : Arena) (b : Block) : (a.pushRoot b).1 = a.slots.size :=
  insertBlock_fst a none b

private theorem IsLinked.follows_addCondition (ha : a.IsLinked) (parent : String) (c : Condition) :
    a.Follows (.addCondition parent c) := by
  rcases ha.blockSlot?_cases parent with ⟨p, t, hslot, hcheck, hp, rfl, hblock⟩ |
    ⟨fault, hslot, hcheck⟩
  · obtain ⟨hb, hafter, hid, hdraft⟩ := ha.appendCondition hp hblock c
    refine Or.inl ⟨some (Draft.newId a.draft.ids a.nextId c.id).1, _, ?_, ?_, hb, hafter⟩
    · simp only [edit, addCondition, hslot, bind, Except.bind, attach_insertCondition]
      rw [insertCondition_fst, hid]
    · simp only [Draft.edit, hcheck, bind, Except.bind, hdraft]
      rfl
  · refine Or.inr ⟨fault, ?_, ?_⟩
    · simp only [edit, addCondition, hslot, bind, Except.bind]
    · simp only [Draft.edit, hcheck, bind, Except.bind]

private theorem IsLinked.follows_addBlock (ha : a.IsLinked) (parent : String) (logic : Logic) :
    a.Follows (.addBlock parent logic) := by
  rcases ha.blockSlot?_cases parent with ⟨p, t, hslot, hcheck, hp, rfl, hblock⟩ |
    ⟨fault, hslot, hcheck⟩
  · obtain ⟨hb, hafter, htree, hid, hnext, hroots, hslots⟩ := ha.fill_appendHollow (some p)
      (fun q hq ↦ ⟨t, Option.some.inj hq ▸ hp, hblock⟩) logic
    have hblocks := ha.toBlocks_append hb hp hblock (by simpa using hroots)
      (fun i s hi ↦ by simpa [eq_comm] using hslots i s hi) htree
    refine Or.inl ⟨some (a.draft.newBlock logic).1.id, _, ?_, ?_, hb, hafter⟩
    · simp only [edit, addBlock, hslot, bind, Except.bind,
        attach_insertBlock_newBlock (lt_size_of_slot? hp)]
      rw [insertBlock_fst, hid]
    · simp only [Draft.edit, hcheck, bind, Except.bind]
      exact congrArg Except.ok (Prod.ext rfl (draft_eq hblocks hnext).symm)
  · refine Or.inr ⟨fault, ?_, ?_⟩
    · simp only [edit, addBlock, hslot, bind, Except.bind]
    · simp only [Draft.edit, hcheck, bind, Except.bind]

private theorem IsLinked.follows_addRoot (ha : a.IsLinked) (logic : Logic) :
    a.Follows (.addRoot logic) := by
  obtain ⟨hb, hafter, htree, hid, hnext, hroots, hslots⟩ := ha.fill_appendHollow none
    (fun p hp ↦ by cases hp) logic
  have hblocks := ha.toBlocks_push hb (by simpa using hroots)
    (fun i s hi ↦ by simpa using hslots i s hi) htree
  refine Or.inl ⟨some (a.draft.newBlock logic).1.id, _, ?_, ?_, hb, hafter⟩
  · simp only [edit, addRoot, pushRoot_newBlock]
    rw [pushRoot_fst, hid]
  · exact congrArg Except.ok (Prod.ext rfl (draft_eq hblocks hnext).symm)

private theorem IsLinked.condition_cases (ha : a.IsLinked) (id : String) :
    (∃ i s c, a.node? id = .ok (i, s) ∧ a.draft.checkCondition id = .ok () ∧
      a.slot? i = some s ∧ s.id = id ∧ s.payload = .condition c) ∨
    ∃ fault, (∀ change, a.updateCondition id change = .error fault) ∧
      a.draft.checkCondition id = .error fault := by
  rcases ha.node?_cases id with ⟨i, s, hnode, hs, hsid, hfind⟩ | ⟨hnode, -, hfind⟩
  · cases hpayload : s.payload with
    | condition c =>
      refine Or.inl ⟨i, s, c, hnode, ?_, hs, hsid, hpayload⟩
      simp [Draft.checkCondition, hfind, Slot.toNode, hpayload]
    | block =>
      refine Or.inr ⟨.notACondition id, fun change ↦ ?_, ?_⟩
      · simp [updateCondition, hnode, hpayload, bind, Except.bind]
      · simp [Draft.checkCondition, hfind, Slot.toNode, hpayload]
  · refine Or.inr ⟨.nodeNotFound id, fun change ↦ ?_, ?_⟩
    · simp [updateCondition, hnode, bind, Except.bind]
    · simp [Draft.checkCondition, hfind]

private theorem IsLinked.follows_updateCondition (ha : a.IsLinked) (id : String)
    (change : ConditionEdit) : a.Follows (.updateCondition id change) := by
  rcases ha.condition_cases id with ⟨i, s, c, hnode, hcheck, hs, rfl, hpayload⟩ |
    ⟨fault, hupdate, hcheck⟩
  · have hid : c.id = s.id := (ha.condition hs hpayload).2
    have hchange : (change.apply c).id = c.id := by cases change <;> rfl
    have hb : (a.modifySlot i fun s ↦ { s with payload := .condition (change.apply c) }).IsLinked :=
      ha.modifySlot (fun _ ↦ ⟨rfl, rfl, rfl⟩)
        (fun t ht ↦ by cases ht.symm.trans hs; rw [hpayload]; rfl)
        fun t c' ht hc ↦ by cases ht.symm.trans hs; cases hc; exact hchange.trans hid
    have hblocks := ha.toBlocks_modifySlot hb (f := fun b ↦ b)
      (g := fun c ↦ if c.id = s.id then change.apply c else c) (fun _ ↦ rfl)
      (fun children _ ↦ by
        rw [Slot.rewrite_toNode]
        simp [Slot.toNode, hpayload, hid])
      (fun j t children hji ht ↦ by
        rw [Slot.rewrite_toNode]
        cases htp : t.payload with
        | block => simp [Slot.toNode, htp]
        | condition c' =>
          have hne : c'.id ≠ s.id := fun h ↦
            hji (ha.eq_of_id ht hs ((ha.condition ht htp).2.symm.trans h))
          simp [Slot.toNode, htp, hne])
      hs
    refine Or.inl ⟨none, _, ?_, ?_, hb, isFollowedBy_modifySlot fun _ ↦ ⟨rfl, rfl, rfl⟩⟩
    · simp only [edit, updateCondition, hnode, bind, Except.bind, hpayload]
    · simp only [Draft.edit_updateCondition, Draft.updateCondition, hcheck, bind, Except.bind]
      exact congrArg Except.ok (Prod.ext rfl (draft_eq hblocks rfl).symm)
  · refine Or.inr ⟨fault, ?_, ?_⟩
    · simp only [edit, hupdate, bind, Except.bind]
    · simp only [Draft.edit_updateCondition, Draft.updateCondition, hcheck, bind, Except.bind]

/-- Changing the payload of a block is changing that block in the filter. -/
theorem IsLinked.modifyBlock_cases (ha : a.IsLinked) (id : String)
    (payload : Logic → Option String → Bool → Payload) (change : Block → Block)
    (hchange : ∀ (s : Slot) children logic name mustHold,
      ({ s with payload := payload logic name mustHold }).toNode children =
        .block (change ⟨s.id, logic, children, name, mustHold⟩))
    (hkind : ∀ logic name mustHold, (payload logic name mustHold).isBlock = true) :
    (∃ b, a.modifyBlock id payload = .ok b ∧ a.draft.checkBlock id = .ok () ∧ b.IsLinked ∧
      a.IsFollowedBy b ∧
      b.draft = { a.draft with blocks := a.draft.blocks.map (Block.update id change) }) ∨
    ∃ fault, a.modifyBlock id payload = .error fault ∧ a.draft.checkBlock id = .error fault := by
  rcases ha.blockSlot?_cases id with ⟨i, s, hslot, hcheck, hs, rfl, hblock⟩ | ⟨fault, hslot, hcheck⟩
  · obtain ⟨logic, name, mustHold, hpayload⟩ := Payload.exists_block hblock
    have hwith : s.withBlock payload = { s with payload := payload logic name mustHold } := by
      rw [Slot.withBlock, hpayload]
    have hb : (a.modifySlot i (Slot.withBlock payload)).IsLinked := by
      refine ha.modifySlot (Slot.withBlock_links payload) (fun t ht ↦ ?_) fun t c ht hc ↦ ?_
      · cases ht.symm.trans hs
        rw [hwith, hblock]
        exact hkind _ _ _
      · cases ht.symm.trans hs
        rw [hwith] at hc
        have := hkind logic name mustHold
        rw [show payload logic name mustHold = .condition c from hc] at this
        cases this
    have hblocks := ha.toBlocks_modifySlot hb
      (f := fun b ↦ if b.id = s.id then change b else b) (g := fun c ↦ c)
      (fun t ↦ (Slot.withBlock_links payload t).2.2)
      (fun children _ ↦ by
        rw [Slot.rewrite_toNode, hwith, hpayload, hchange]
        simp only [if_true])
      (fun j t children hji ht ↦ by
        have hne : t.id ≠ s.id := fun h ↦ hji (ha.eq_of_id ht hs h)
        rw [Slot.rewrite_toNode]
        cases htp : t.payload <;> simp [Slot.toNode, htp, hne])
      hs
    refine Or.inl ⟨_, ?_, hcheck, hb, isFollowedBy_modifySlot (Slot.withBlock_links payload),
      draft_eq hblocks rfl⟩
    simp only [modifyBlock, hslot, bind, Except.bind]
    rfl
  · exact Or.inr ⟨fault, by simp only [modifyBlock, hslot, bind, Except.bind], hcheck⟩

private theorem IsLinked.follows_setLogic (ha : a.IsLinked) (id : String) (logic : Logic) :
    a.Follows (.setLogic id logic) := by
  rcases ha.modifyBlock_cases id (fun _ name mustHold ↦ .block logic name mustHold)
    (fun b ↦ { b with logic }) (fun _ _ _ _ _ ↦ rfl) fun _ _ _ ↦ rfl with
    ⟨b, hmodify, hcheck, hb, hafter, hdraft⟩ | ⟨fault, hmodify, hcheck⟩
  · refine Or.inl ⟨none, b, ?_, ?_, hb, hafter⟩
    · simp only [edit, setLogic, hmodify, bind, Except.bind]
    · simp only [Draft.edit, hcheck, bind, Except.bind, hdraft]
  · refine Or.inr ⟨fault, ?_, ?_⟩
    · simp only [edit, setLogic, hmodify, bind, Except.bind]
    · simp only [Draft.edit, hcheck, bind, Except.bind]

private theorem IsLinked.follows_setName (ha : a.IsLinked) (id : String) (name : Option String)
    (mustHold : Bool) : a.Follows (.setName id name mustHold) := by
  rcases ha.modifyBlock_cases id (fun logic _ _ ↦ .block logic name mustHold)
    (fun b ↦ { b with name, mustHold }) (fun _ _ _ _ _ ↦ rfl) fun _ _ _ ↦ rfl with
    ⟨b, hmodify, hcheck, hb, hafter, hdraft⟩ | ⟨fault, hmodify, hcheck⟩
  · refine Or.inl ⟨none, b, ?_, ?_, hb, hafter⟩
    · simp only [edit, setName, hmodify, bind, Except.bind]
    · simp only [Draft.edit, hcheck, bind, Except.bind, hdraft]
  · refine Or.inr ⟨fault, ?_, ?_⟩
    · simp only [edit, setName, hmodify, bind, Except.bind]
    · simp only [Draft.edit, hcheck, bind, Except.bind]

/-- Children whose ids are that of one node are that node alone. -/
theorem IsLinked.map_id_treesOf_eq_iff (ha : a.IsLinked) (hi : a.slot? i = some s)
    (ht : a.slot? p = some t) : (a.treesOf t.children).map Node.id = [s.id] ↔ t.children = [i] := by
  have hids : (a.treesOf t.children).map Node.id = t.children.map a.idOf := by
    rw [treesOf, List.map_filterMap, ← List.filterMap_eq_map]
    refine List.filterMap_congr fun c hc ↦ ?_
    obtain ⟨u, hu, -⟩ := ha.child ht hc
    rw [ha.tree?_eq_some hu, Option.map_some, ha.id_toNode hu, Function.comp_apply, idOf, hu]
    rfl
  rw [hids]
  constructor
  · intro h
    obtain ⟨c, rest, hcons, hc, hrest⟩ := List.map_eq_cons_iff.mp h
    obtain rfl := List.map_eq_nil_iff.mp hrest
    obtain ⟨u, hu, -⟩ := ha.child ht (hcons ▸ List.mem_cons_self)
    rw [idOf, hu] at hc
    rw [hcons, ha.eq_of_id hu hi hc]
  · intro h
    rw [h, List.map_singleton, idOf, hi]
    rfl

/-- A root block whose only child a node is. -/
theorem IsLinked.find?_lone_cases (ha : a.IsLinked) (hi : a.slot? i = some s) :
    (∃ p t root, s.parent = some p ∧ a.slot? p = some t ∧ p ∈ a.roots ∧ t.children = [i] ∧
      root.id = t.id ∧ a.toBlocks.find? (·.children.map Node.id == [s.id]) = some root) ∨
    ((∀ p t, a.slot? p = some t → p ∈ a.roots → t.children ≠ [i]) ∧
      a.toBlocks.find? (·.children.map Node.id == [s.id]) = none) := by
  have hblock {t : Slot} {root : Block} (h : t.toNode (a.treesOf t.children) = .block root) :
      root.id = t.id ∧ root.children = a.treesOf t.children := by
    rw [Slot.toNode] at h
    cases hpayload : t.payload <;> rw [hpayload] at h <;> cases h
    exact ⟨rfl, rfl⟩
  cases hfind : a.toBlocks.find? (·.children.map Node.id == [s.id]) with
  | some root =>
    have hmem : Node.block root ∈ a.treesOf a.roots := by
      rw [ha.treesOf_roots]
      exact List.mem_map_of_mem (List.mem_of_find?_eq_some hfind)
    obtain ⟨p, hp, htree⟩ := List.mem_filterMap.mp hmem
    obtain ⟨t, ht, hroot⟩ := ha.of_tree? htree
    obtain ⟨hid, hchildren⟩ := hblock hroot.symm
    have hlone := List.find?_some hfind
    rw [beq_iff_eq, hchildren, ha.map_id_treesOf_eq_iff hi ht] at hlone
    obtain ⟨u, hu, hparent⟩ := ha.child ht (hlone ▸ List.mem_cons_self)
    cases hu.symm.trans hi
    exact Or.inl ⟨p, t, root, hparent, ht, hp, hlone, hid, rfl⟩
  | none =>
    refine Or.inr ⟨fun p t ht hp hlone ↦ ?_, rfl⟩
    have hmem : t.toNode (a.treesOf t.children) ∈ a.treesOf a.roots :=
      List.mem_filterMap.mpr ⟨p, hp, ha.tree?_eq_some ht⟩
    rw [ha.treesOf_roots] at hmem
    obtain ⟨root, hroot, htree⟩ := List.mem_map.mp hmem
    have := List.find?_eq_none.mp hfind root hroot
    rw [beq_iff_eq, (hblock htree.symm).2, ha.map_id_treesOf_eq_iff hi ht] at this
    exact this hlone

/-- After a cut the parent has no child left, and is a root, if the node was the only child of a
root. -/
theorem IsLinked.isLeft_iff (ha : a.IsLinked) (hi : a.slot? i = some s) (hs : s.parent = some p)
    (hp : a.slot? p = some t) (h : a.IsCut i b) :
    ((b.slot? p).any (·.children.isEmpty) && b.roots.contains p) = true ↔
      p ∈ a.roots ∧ t.children = [i] := by
  obtain ⟨hlt, u, hu, hmem⟩ := ha.parent hi hs
  cases hu.symm.trans hp
  have hempty : t.children.filter (· != i) = [] ↔ t.children = [i] := by
    rw [filter_bne_eq_nil_iff (ha.nodup_children hp)]
    exact or_iff_right (List.ne_nil_of_mem hmem)
  rw [h.slot?_kept fun hbelow ↦ absurd (ha.le_of_isBelow hbelow) (Nat.not_le.mpr hlt), hp, h.roots]
  simp only [Option.map_some, Option.any_some, Bool.and_eq_true, List.isEmpty_iff, hempty,
    List.contains_eq_mem, decide_eq_true_eq, List.mem_filter, bne_iff_ne]
  exact ⟨fun h ↦ ⟨h.2.1, h.1⟩, fun h ↦ ⟨h.2, h.1, hlt.ne⟩⟩

/-- Removing a node is an edit of the filter if what is left is the filter without it. -/
theorem IsLinked.follows_remove_of (ha : a.IsLinked) (hi : a.slot? i = some s)
    (h : a.remove s.id = .ok b) (hb : b.IsLinked) (hafter : a.IsFollowedBy b)
    (hdraft : b.draft = a.draft.remove s.id) : a.Follows (.remove s.id) := by
  have hcheck : a.draft.checkNode s.id = .ok () := by
    rw [Draft.checkNode, ha.draft_find?, ha.find?_id hi, Option.bind_some, ha.tree?_eq_some hi]
    rfl
  refine Or.inl ⟨none, b, ?_, ?_, hb, hafter⟩
  · simp only [edit, h, bind, Except.bind]
  · simp only [Draft.edit, hcheck, bind, Except.bind, hdraft]

private theorem IsLinked.follows_remove_root (ha : a.IsLinked) (hi : a.slot? i = some s)
    (hs : s.parent = none) : a.Follows (.remove s.id) := by
  have hcut := ha.isCut_root hi hs
  have hafter := hcut.isFollowedBy ha (IsFollowedBy.refl _) fun {q t u} _ ht hlone _ ↦ by
    obtain ⟨v, hv, hp⟩ := ha.child ht (hlone ▸ List.mem_cons_self)
    cases hv.symm.trans hi
    cases hs.symm.trans hp
  refine ha.follows_remove_of hi ?_ (hcut.isLinked ha) hafter ?_
  · simp only [remove, ha.find?_id hi, hi, hs, bind, Except.bind, Option.elim, Option.bind]
  · rcases ha.find?_lone_cases hi with ⟨p, t, root, hp, -⟩ | ⟨-, hlone⟩
    · cases hs.symm.trans hp
    · rw [draft_eq (hcut.toBlocks_eq ha hi) hcut.nextId, Draft.remove]
      simp only [draft, hlone]
      rfl

private theorem IsLinked.follows_remove_child (ha : a.IsLinked) (hi : a.slot? i = some s)
    (hs : s.parent = some p) : a.Follows (.remove s.id) := by
  have hcut := ha.isCut_child hi hs
  have hb := hcut.isLinked ha
  obtain ⟨hlt, t, hp, hmem⟩ := ha.parent hi hs
  have hleft := ha.isLeft_iff hi hs hp hcut
  set b := (dropTree a.slots.size a i).modifySlot p fun s ↦
    { s with children := s.children.filter (· != i) }
  have hdraft : b.draft = a.draft.erase s.id := draft_eq (hcut.toBlocks_eq ha hi) hcut.nextId
  have hremove : a.remove s.id =
      if (b.slot? p).any (·.children.isEmpty) && b.roots.contains p then .ok (b.fill p)
      else .ok b := by
    simp only [remove, ha.find?_id hi, hi, hs, bind, Except.bind, Option.elim, Option.bind]
    rfl
  rcases ha.find?_lone_cases hi with
    ⟨q, u, root, hq, hu, hroot, hlone, hid, hfound⟩ | ⟨hnone, hfound⟩
  · cases hq.symm.trans hs
    cases hu.symm.trans hp
    rw [if_pos (hleft.mpr ⟨hroot, hlone⟩)] at hremove
    have hkept := hcut.slot?_kept fun hbelow ↦
      absurd (ha.le_of_isBelow hbelow) (Nat.not_le.mpr hlt)
    rw [hp, Option.map_some] at hkept
    have hltb (q) (hq : some p = some q) : q < b.slots.size :=
      Option.some.inj hq ▸ lt_size_of_slot? hkept
    have hblock : t.payload.isBlock = true := ha.isBlock_of_child hp hmem
    obtain ⟨hlinked, hfilled, -, hfilledDraft⟩ := hb.appendCondition hkept hblock .empty
    have hafter := hcut.isFollowedBy ha hfilled fun {q u v} _ hu hlone' hv ↦ by
      obtain ⟨w, hw, hs'⟩ := ha.child hu (hlone' ▸ List.mem_cons_self)
      cases hw.symm.trans hi
      cases hs'.symm.trans hs
      rw [slot?_appendFresh hltb, if_neg (hltb p rfl).ne, if_pos rfl, hkept] at hv
      cases hv
      exact List.append_ne_nil_of_right_ne_nil _ (List.cons_ne_nil _ _)
    refine ha.follows_remove_of hi hremove hlinked hafter (hfilledDraft.trans ?_)
    rw [hdraft, Draft.remove]
    simp only [draft, hfound, hid, hcut.toBlocks_eq ha hi, hcut.nextId]
    rfl
  · rw [if_neg fun htrue ↦ hnone p t hp (hleft.mp htrue).1 (hleft.mp htrue).2] at hremove
    have hafter := hcut.isFollowedBy ha (IsFollowedBy.refl b) fun {q u _} hq hu hlone ↦
      absurd hlone (hnone q u hu hq)
    refine ha.follows_remove_of hi hremove hb hafter ?_
    rw [hdraft, Draft.remove]
    simp only [draft, hfound]

private theorem IsLinked.follows_remove (ha : a.IsLinked) (id : String) :
    a.Follows (.remove id) := by
  rcases ha.node?_cases id with ⟨i, s, -, hs, rfl, -⟩ | ⟨-, hid, hfind⟩
  · cases hparent : s.parent with
    | none => exact ha.follows_remove_root hs hparent
    | some p => exact ha.follows_remove_child hs hparent
  · refine Or.inr ⟨.nodeNotFound id, ?_, ?_⟩
    · simp only [edit, remove, hid, bind, Except.bind]
      rfl
    · simp [Draft.edit, Draft.checkNode, hfind, bind, Except.bind]

/-- Every edit of a linked arena is the edit of its filter. -/
theorem IsLinked.follows (ha : a.IsLinked) (e : Edit) : a.Follows e := by
  cases e with
  | addCondition parent c => exact ha.follows_addCondition parent c
  | addBlock parent logic => exact ha.follows_addBlock parent logic
  | addRoot logic => exact ha.follows_addRoot logic
  | updateCondition id change => exact ha.follows_updateCondition id change
  | setLogic id logic => exact ha.follows_setLogic id logic
  | setName id name mustHold => exact ha.follows_setName id name mustHold
  | remove id => exact ha.follows_remove id

end Squares

end Arena
end FilterPipeline
