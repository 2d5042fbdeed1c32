import FilterPipeline.Filter.Arena
import FilterPipeline.Proofs.ArenaEdits
import FilterPipeline.Proofs.FilterEdits

/-!
# Arenas that edits lead to

`Arena.perform` makes an edit in place, change by change, so that a failure leaves what has been
changed before it. Main statements: in every arena that edits lead to, failing ones included, the
slots, the index, the roots and the links describe one tree, and no root loses its last child
(`Arena.IsReachable.isCoherent`); every edit is the edit of the tree, and one that fails changes
nothing (`Arena.IsReachable.perform_refines`).
-/

namespace FilterPipeline
namespace Arena

/-- Looks at the arena, and may fail. -/
def inspect {α : Type} (look : Arena → Except Fault α) : EStateM Fault Arena α := do
  match look (← get) with
  | .ok x => return x
  | .error fault => throw fault

/-- Takes a removed node off the children of its parent, which is filled if it is a root without
children then, or off the roots. -/
def takeOff (i : Nat) : Option Nat → EStateM Fault Arena Unit
  | none => modify fun a ↦ { a with roots := a.roots.filter (· != i) }
  | some p => do
    modify (·.modifySlot p fun s ↦ { s with children := s.children.filter (· != i) })
    if ((← get).slot? p).any (·.children.isEmpty) && (← get).roots.contains p then
      let filler ← modifyGet (·.insertCondition (some p) .empty)
      modify (·.attach p filler)

/-- An edit that is made in place: the id of an added node. -/
def perform : Edit → EStateM Fault Arena (Option String)
  | .addCondition parent c => do
    let p ← inspect (·.blockSlot? parent)
    let i ← modifyGet (·.insertCondition (some p) c)
    modify (·.attach p i)
    return some ((← get).idOf i)
  | .addBlock parent logic => do
    let p ← inspect (·.blockSlot? parent)
    let i ← modifyGet (·.insertBlock (some p) (newBlock logic))
    modify (·.attach p i)
    return some ((← get).idOf i)
  | .addRoot logic => do
    let i ← modifyGet (·.insertBlock none (newBlock logic))
    modify fun a ↦ { a with roots := a.roots ++ [i] }
    return some ((← get).idOf i)
  | .updateCondition id change => do
    let (i, s) ← inspect (·.node? id)
    match s.payload with
    | .block .. => throw (.notACondition id)
    | .condition c =>
      modify (·.modifySlot i fun s ↦ { s with payload := .condition (change.apply c) })
      return none
  | .setLogic id logic => do
    let i ← inspect (·.blockSlot? id)
    modify (·.modifySlot i (Slot.withBlock fun _ name mustHold ↦ .block logic name mustHold))
    return none
  | .setName id name mustHold => do
    let i ← inspect (·.blockSlot? id)
    modify (·.modifySlot i (Slot.withBlock fun logic _ _ ↦ .block logic name mustHold))
    return none
  | .remove id => do
    let i ← inspect fun a ↦ (a.find? id).elim (.error (.nodeNotFound id)) .ok
    let parent := ((← get).slot? i).bind Slot.parent
    modify fun a ↦ dropTree a.slots.size a i
    takeOff i parent
    return none

/-- The arena after an edit, whether that succeeds or fails. -/
def after (a : Arena) (e : Edit) : Arena :=
  match (perform e).run a with
  | .ok _ b => b
  | .error _ b => b

section Performing

variable {a : Arena}

private theorem inspect_run {α : Type} (look : Arena → Except Fault α) :
    (inspect look).run a =
      match look a with
      | .ok x => .ok x a
      | .error fault => .error fault a := by
  rw [inspect, EStateM.run_bind, EStateM.run_get]
  cases h : look a <;> simp only [h] <;> rfl

/-- Edits that fail do so before they change anything. -/
theorem perform_run (a : Arena) (e : Edit) :
    (perform e).run a =
      match a.edit e with
      | .ok (told, b) => .ok told b
      | .error fault => .error fault a := by
  cases e with
  | addCondition parent c =>
    rw [perform, EStateM.run_bind, inspect_run, edit, addCondition]
    cases a.blockSlot? parent <;> rfl
  | addBlock parent logic =>
    rw [perform, EStateM.run_bind, inspect_run, edit, addBlock]
    cases a.blockSlot? parent <;> rfl
  | addRoot logic => rfl
  | updateCondition id change =>
    rw [perform, EStateM.run_bind, inspect_run, edit, updateCondition]
    cases a.node? id with
    | error => rfl
    | ok found =>
      obtain ⟨i, id, parent, children, payload⟩ := found
      cases payload <;> rfl
  | setLogic id logic =>
    rw [perform, EStateM.run_bind, inspect_run, edit, setLogic, modifyBlock]
    cases a.blockSlot? id <;> rfl
  | setName id name mustHold =>
    rw [perform, EStateM.run_bind, inspect_run, edit, setName, modifyBlock]
    cases a.blockSlot? id <;> rfl
  | remove id =>
    rw [perform, EStateM.run_bind, inspect_run, edit, remove]
    cases a.find? id with
    | none => rfl
    | some i =>
      dsimp only [Option.elim]
      simp only [EStateM.run_bind, EStateM.run_get, EStateM.run_modify]
      simp only [bind, Except.bind]
      cases (a.slot? i).bind Slot.parent with
      | none => rfl
      | some p =>
        simp only [takeOff, EStateM.run_bind, EStateM.run_modify, EStateM.run_get]
        set b := (dropTree a.slots.size a i).modifySlot p fun s ↦
          { s with children := s.children.filter (· != i) }
        cases (b.slot? p).any (·.children.isEmpty) && b.roots.contains p <;> rfl

end Performing

/-- An arena that edits lead to, from one without nodes or from that of a filter. -/
inductive IsReachable : Arena → Prop
  | empty : IsReachable empty
  | ofBlocks (blocks : List Block) : IsReachable (ofBlocks blocks)
  | after {a : Arena} (e : Edit) : IsReachable a → IsReachable (a.after e)

/-- The arena after edits one by one. -/
def run (a : Arena) (es : List Edit) : Arena := es.foldl after a

/-- The slots, the index, the roots and the links of an arena describe one tree. -/
structure IsCoherent (a : Arena) : Prop where
  find?_iff : ∀ id i, a.find? id = some i ↔ ∃ s, a.slot? i = some s ∧ s.id = id
  id_ne : ∀ i s, a.slot? i = some s → s.id ≠ ""
  eq_of_id : ∀ i j s t, a.slot? i = some s → a.slot? j = some t → s.id = t.id → i = j
  nodup_roots : a.roots.Nodup
  root : ∀ i ∈ a.roots, ∃ s, a.slot? i = some s ∧ s.parent = none ∧ s.payload.isBlock = true
  /-- The parent of a node that is no root lists it exactly once. -/
  parent : ∀ i s, a.slot? i = some s → i ∉ a.roots → ∃ p t, s.parent = some p ∧
    a.slot? p = some t ∧ t.payload.isBlock = true ∧ t.children.count i = 1
  child : ∀ i s c, a.slot? i = some s → c ∈ s.children →
    ∃ t, a.slot? c = some t ∧ t.parent = some i
  condition : ∀ i s c, a.slot? i = some s → s.payload = .condition c →
    s.children = [] ∧ c.id = s.id
  exists_root : ∀ i s, a.slot? i = some s → ∃ r ∈ a.roots, a.IsBelow r i
  size_eq : a.size = (a.toBlocks.flatMap Block.nodes).length

variable {a : Arena}

/-- Links that fit together describe one tree. -/
theorem IsLinked.coherent (ha : a.IsLinked) : a.IsCoherent where
  find?_iff id i := ha.find?_iff
  id_ne i s hi := ha.id_ne hi
  eq_of_id i j s t hi hj := ha.eq_of_id hi hj
  nodup_roots := ha.nodup_roots
  root i hi := ha.root hi
  parent i s hi hroot := by
    cases hp : s.parent with
    | none => exact absurd (ha.mem_roots hi hp) hroot
    | some p =>
      obtain ⟨-, t, ht, hmem⟩ := ha.parent hi hp
      exact ⟨p, t, rfl, ht, ha.isBlock_of_child ht hmem,
        List.count_eq_one_of_mem (ha.nodup_children ht) hmem⟩
  child i s c hi hc := ha.child hi hc
  condition i s c hi hc := ha.condition hi hc
  exists_root i s hi := ha.exists_root hi
  size_eq := ha.size_eq

/-- An edit keeps the links, and leaves the other nodes in place. -/
theorem IsLinked.after (ha : a.IsLinked) (e : Edit) :
    (a.after e).IsLinked ∧ a.IsFollowedBy (a.after e) := by
  rw [Arena.after, perform_run]
  rcases ha.follows e with ⟨told, b, hedit, -, hb, hafter⟩ | ⟨fault, hedit, -⟩
  · rw [hedit]
    exact ⟨hb, hafter⟩
  · rw [hedit]
    exact ⟨ha, IsFollowedBy.refl a⟩

/-- An edit is that of the filter, which a failing one leaves as it is. -/
theorem IsLinked.draft_after (ha : a.IsLinked) (e : Edit) :
    (a.after e).draft = match a.draft.edit e with
      | .ok (_, d) => d
      | .error _ => a.draft := by
  rw [Arena.after, perform_run]
  rcases ha.follows e with ⟨told, b, hedit, hdraft, -⟩ | ⟨fault, hedit, hdraft⟩ <;>
    rw [hedit, hdraft]

/-- Edits one by one keep the links, and leave the other nodes in place. -/
theorem IsLinked.run (ha : a.IsLinked) (es : List Edit) :
    (a.run es).IsLinked ∧ a.IsFollowedBy (a.run es) := by
  induction es generalizing a with
  | nil => exact ⟨ha, IsFollowedBy.refl a⟩
  | cons e rest ih =>
    obtain ⟨hb, hab⟩ := ha.after e
    obtain ⟨hc, hbc⟩ := ih hb
    exact ⟨hc, hab.trans hbc⟩

/-- The links of an arena that edits lead to fit together. -/
theorem IsReachable.isLinked (h : a.IsReachable) : a.IsLinked := by
  induction h with
  | empty => exact IsLinked.empty
  | ofBlocks blocks => exact isLinked_ofBlocks blocks
  | after e _ ih => exact (ih.after e).1

/-- An arena that edits lead to describes one tree, and whatever edits come next, a root that has a
child now has one as long as it is a root. -/
theorem IsReachable.isCoherent (h : a.IsReachable) :
    a.IsCoherent ∧ ∀ r s, a.slot? r = some s → r ∈ a.roots → s.children ≠ [] →
      ∀ es, r ∈ (a.run es).roots →
        ∃ t, (a.run es).slot? r = some t ∧ t.id = s.id ∧ t.children ≠ [] := by
  have ha := h.isLinked
  refine ⟨ha.coherent, fun r s hs hr hne es hr' ↦ ?_⟩
  obtain ⟨hb, hab⟩ := ha.run es
  obtain ⟨t, ht, -⟩ := hb.root hr'
  obtain ⟨s', hs', hid, -, hchildren⟩ := hab.of_slot? (lt_size_of_slot? hs) ht
  cases hs'.symm.trans hs
  obtain ⟨u, hu, hnone, -⟩ := ha.root hr
  cases hu.symm.trans hs
  exact ⟨t, ht, hid, hchildren hnone hne⟩

/-- A root block with one condition. -/
def lone : Block :=
  ⟨"root", .and, [.condition { Condition.empty with id := "only" }], none, true⟩

/-- The slots that the block and its condition get. -/
theorem ofBlocks_lone :
    ofBlocks [lone] =
      ⟨#[some ⟨"root", none, [1], .block .and none true⟩,
          some ⟨"only", some 0, [], .condition { Condition.empty with id := "only" }⟩],
        (ofBlocks [lone]).index, [0], 0⟩ := by
  simp [lone, ofBlocks, pushRoot, insertBlock, insertChildren, insertNode, insertCondition, freshId,
    push, attach, modifySlot, empty, contains]

/-- The arena of one root block with one condition describes that tree, and the root keeps a child
whatever edits come next. -/
theorem lone_isCoherent :
    (ofBlocks [lone]).IsCoherent ∧ ∀ es, 0 ∈ ((ofBlocks [lone]).run es).roots →
      ∃ t, ((ofBlocks [lone]).run es).slot? 0 = some t ∧ t.id = "root" ∧ t.children ≠ [] := by
  obtain ⟨hcoherent, hroots⟩ := (IsReachable.ofBlocks [lone]).isCoherent
  refine ⟨hcoherent, hroots 0 ⟨"root", none, [1], .block .and none true⟩ ?_ ?_ (by decide)⟩
  · rw [ofBlocks_lone]
    rfl
  · rw [ofBlocks_lone]
    exact List.mem_cons_self

/-- An edit of an arena that edits lead to is the edit of its filter; an id that is told is new and
all ids are distinct then. An edit that fails changes nothing. -/
theorem IsReachable.perform_refines (h : a.IsReachable) (e : Edit) :
    match (perform e).run a with
    | .ok told b => a.draft.edit e = .ok (told, b.draft) ∧ b.draft.ids.Nodup ∧
        ∀ id, told = some id → id ∉ a.draft.ids
    | .error fault b => a.draft.edit e = .error fault ∧ b = a := by
  have ha := h.isLinked
  rw [perform_run]
  rcases ha.follows e with ⟨told, b, hedit, hdraft, hb, -⟩ | ⟨fault, hedit, hdraft⟩
  · rw [hedit]
    refine ⟨hdraft, hb.nodup_draft_ids, fun id hid ↦ ?_⟩
    rw [hid] at hdraft
    exact (Draft.notMem_ids_of_edit hdraft).2
  · rw [hedit]
    exact ⟨hdraft, rfl⟩

/-- The root block whose only condition is removed gets an empty one with a new id, and of that
condition just the field is set. -/
theorem lone_perform_refines :
    (∃ b, (perform (.remove "only")).run (ofBlocks [lone]) = .ok none b ∧
      b.draft = ⟨[⟨"root", .and, [Draft.emptyCondition "node-0"], none, true⟩], 1⟩) ∧
    ∃ b, (perform (.updateCondition "only" (.field (some "mag")))).run (ofBlocks [lone]) =
        .ok none b ∧
      b.draft = ⟨[⟨"root", .and, [.condition ⟨"only", some "mag", none, .literal .null, none⟩],
        none, true⟩], 0⟩ := by
  have hdraft : (ofBlocks [lone]).draft = ⟨[lone], 0⟩ := by
    rw [ofBlocks_lone]
    rfl
  have hperform (e : Edit) (d : Draft) (hedit : (⟨[lone], 0⟩ : Draft).edit e = .ok (none, d)) :
      ∃ b, (perform e).run (ofBlocks [lone]) = .ok none b ∧ b.draft = d := by
    have hrefines := (IsReachable.ofBlocks [lone]).perform_refines e
    rw [hdraft, hedit] at hrefines
    cases hrun : (perform e).run (ofBlocks [lone]) with
    | ok told b =>
      rw [hrun] at hrefines
      obtain ⟨htold, hb⟩ := Prod.mk.inj (Except.ok.inj hrefines.1)
      exact ⟨b, by rw [← htold], hb.symm⟩
    | error fault b =>
      rw [hrun] at hrefines
      cases hrefines.1
  exact ⟨hperform _ _ rfl, hperform _ _ rfl⟩

end Arena
end FilterPipeline
