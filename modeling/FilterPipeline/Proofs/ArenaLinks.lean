import FilterPipeline.Filter.Arena
import FilterPipeline.Proofs.FilterEdits

/-!
# How the slots of an arena are linked

The index, the roots, the parents and the lists of children of an arena describe one tree. What that
asks of single slots is `Arena.IsLinked`; it is kept by whatever adds a node, because adding a whole
block adds its nodes one by one, each as the last child of a block that is there already.
-/

namespace FilterPipeline

/-- Whether a slot holds a block. -/
def Payload.isBlock : Payload → Bool
  | block .. => true
  | condition _ => false

namespace Arena

/-- The links of an arena fit together. -/
structure IsLinked (a : Arena) : Prop where
  /-- The index leads from an id to the slot of the node with that id, and nowhere else. -/
  find?_iff : ∀ {id i}, a.find? id = some i ↔ ∃ s, a.slot? i = some s ∧ s.id = id
  id_ne : ∀ {i s}, a.slot? i = some s → s.id ≠ ""
  nodup_roots : a.roots.Nodup
  root : ∀ {i}, i ∈ a.roots → ∃ s, a.slot? i = some s ∧ s.parent = none ∧ s.payload.isBlock = true
  mem_roots : ∀ {i s}, a.slot? i = some s → s.parent = none → i ∈ a.roots
  /-- A parent stands in an earlier slot. -/
  parent : ∀ {i s p}, a.slot? i = some s → s.parent = some p →
    p < i ∧ ∃ t, a.slot? p = some t ∧ i ∈ t.children
  child : ∀ {i s c}, a.slot? i = some s → c ∈ s.children →
    ∃ t, a.slot? c = some t ∧ t.parent = some i
  nodup_children : ∀ {i s}, a.slot? i = some s → s.children.Nodup
  condition : ∀ {i s c}, a.slot? i = some s → s.payload = .condition c →
    s.children = [] ∧ c.id = s.id

/-- Adds a node without children: as the last child of a block, or as the last root. -/
def appendNode (a : Arena) (parent : Option Nat) (id : String) (payload : Payload) : Arena :=
  let b := (a.push id parent payload).2
  match parent with
  | some p => b.attach p a.slots.size
  | none => { b with roots := a.roots ++ [a.slots.size] }

/-- Adds a node without children under an id that is looked for. -/
def appendFresh (a : Arena) (parent : Option Nat) (requested : String)
    (payload : String → Payload) : Arena :=
  (a.freshId requested).2.appendNode parent (a.freshId requested).1
    (payload (a.freshId requested).1)

/-- The nodes of an arena keep their places in another one; only children may come to them. -/
def IsKeptIn (a b : Arena) : Prop :=
  ∀ j s, a.slot? j = some s → ∃ t, b.slot? j = some t ∧ t.id = s.id ∧ t.parent = s.parent ∧
    t.payload = s.payload ∧ s.children ⊆ t.children

variable {a : Arena} {parent : Option Nat} {i j : Nat} {id : String} {s : Slot} {payload : Payload}

section Slots

/-- A slot that holds a node is one of those there are. -/
theorem lt_size_of_slot? (h : a.slot? i = some s) : i < a.slots.size := by
  simp only [slot?, Option.join_eq_some_iff] at h
  exact (Array.getElem?_eq_some_iff.mp h).1

/-- Behind the slots there are no nodes. -/
theorem slot?_eq_none (h : a.slots.size ≤ i) : a.slot? i = none := by
  simp [slot?, Array.getElem?_eq_none h]

private theorem slot?_push :
    (a.push id parent payload).2.slot? j =
      if j = a.slots.size then some ⟨id, parent, [], payload⟩ else a.slot? j := by
  simp only [push, slot?, Array.getElem?_push]
  split <;> simp

/-- Changing a slot leaves the others. -/
theorem slot?_modifySlot {f : Slot → Slot} :
    (a.modifySlot i f).slot? j = if i = j then (a.slot? j).map f else a.slot? j := by
  simp only [modifySlot, slot?, Array.getElem?_modify]
  split
  · cases a.slots[j]? with
    | none => rfl
    | some o => cases o <;> rfl
  · rfl

/-- Emptying a slot leaves the others. -/
theorem slot?_setIfInBounds {index : Std.HashMap String Nat} :
    ({ a with slots := a.slots.setIfInBounds i none, index } : Arena).slot? j =
      if i = j then none else a.slot? j := by
  simp only [slot?, Array.getElem?_setIfInBounds]
  split
  · split <;> rfl
  · rfl

/-- An added node is in the first slot behind the others, and listed as the last child of its
parent. -/
theorem slot?_appendNode (hlt : ∀ p, parent = some p → p < a.slots.size) :
    (a.appendNode parent id payload).slot? j =
      if j = a.slots.size then some ⟨id, parent, [], payload⟩
      else if parent = some j then
        (a.slot? j).map fun s ↦ { s with children := s.children ++ [a.slots.size] }
      else a.slot? j := by
  cases parent with
  | none =>
    simp only [reduceCtorEq, if_false]
    exact slot?_push
  | some p =>
    have hp := hlt p rfl
    simp only [appendNode, attach, slot?_modifySlot, slot?_push, Option.some.injEq]
    by_cases hj : j = a.slots.size
    · rw [if_neg (by omega), if_pos hj, if_pos hj]
    · simp only [if_neg hj]

private theorem find?_appendNode {id' : String} :
    (a.appendNode parent id payload).find? id' =
      if id = id' then some a.slots.size else a.find? id' := by
  cases parent <;>
    simp [appendNode, attach, modifySlot, push, find?, Std.HashMap.getElem?_insert]

/-- A node that is added without parent is a root. -/
theorem roots_appendNode :
    (a.appendNode parent id payload).roots =
      a.roots ++ if parent.isNone then [a.slots.size] else [] := by
  cases parent <;> simp [appendNode, attach, modifySlot, push]

/-- A new node is in the first slot behind the others. -/
@[simp] theorem push_fst : (a.push id parent payload).1 = a.slots.size := rfl

/-- A node is put into one new slot. -/
@[simp] theorem size_push : (a.push id parent payload).2.slots.size = a.slots.size + 1 := by
  simp [push]

/-- Changing a slot keeps the number of slots. -/
@[simp] theorem size_modifySlot {f : Slot → Slot} :
    (a.modifySlot i f).slots.size = a.slots.size := by
  simp [modifySlot]

/-- A new node takes one new slot, and its parent or the roots list it. -/
@[simp] theorem size_appendNode :
    (a.appendNode parent id payload).slots.size = a.slots.size + 1 := by
  cases parent <;> simp [appendNode, attach, modifySlot, push]

private theorem of_slot?_appendNode (hlt : ∀ p, parent = some p → p < a.slots.size)
    (h : (a.appendNode parent id payload).slot? j = some s) :
    (j = a.slots.size ∧ s = ⟨id, parent, [], payload⟩) ∨
      ∃ t, a.slot? j = some t ∧
        ((parent = some j ∧ s = { t with children := t.children ++ [a.slots.size] }) ∨
          (parent ≠ some j ∧ s = t)) := by
  rw [slot?_appendNode hlt] at h
  split at h
  · next hj => exact Or.inl ⟨hj, (Option.some.inj h).symm⟩
  · split at h
    · next hj =>
      obtain ⟨t, ht, rfl⟩ := Option.map_eq_some_iff.mp h
      exact Or.inr ⟨t, ht, Or.inl ⟨hj, rfl⟩⟩
    · next hj => exact Or.inr ⟨s, h, Or.inr ⟨hj, rfl⟩⟩

/-- Nodes keep their places when one is added. -/
theorem isKeptIn_appendNode (hlt : ∀ p, parent = some p → p < a.slots.size) :
    a.IsKeptIn (a.appendNode parent id payload) := by
  intro j s h
  rw [slot?_appendNode hlt, if_neg (lt_size_of_slot? h).ne, h]
  split
  · exact ⟨_, rfl, rfl, rfl, rfl, List.subset_append_left _ _⟩
  · exact ⟨s, rfl, rfl, rfl, rfl, List.Subset.refl _⟩

/-- Nodes keep their places in an arena itself. -/
theorem IsKeptIn.refl (a : Arena) : a.IsKeptIn a :=
  fun _ s h ↦ ⟨s, h, rfl, rfl, rfl, List.Subset.refl _⟩

/-- Nodes that keep their places twice keep them. -/
theorem IsKeptIn.trans {b c : Arena} (hab : a.IsKeptIn b) (hbc : b.IsKeptIn c) :
    a.IsKeptIn c := by
  intro j s h
  obtain ⟨t, ht, hid, hparent, hpayload, hsub⟩ := hab j s h
  obtain ⟨u, hu, hid', hparent', hpayload', hsub'⟩ := hbc j t ht
  exact ⟨u, hu, hid'.trans hid, hparent'.trans hparent, hpayload'.trans hpayload,
    List.Subset.trans hsub hsub'⟩

end Slots

section FreshIds

private theorem freeNumber_cases (a : Arena) : (fuel n : Nat) →
    n ≤ a.freeNumber fuel n ∧
      (∀ m, n ≤ m → m < a.freeNumber fuel n → a.contains (generatedId m) = true) ∧
      (a.contains (generatedId (a.freeNumber fuel n)) = false ∨ a.freeNumber fuel n = n + fuel)
  | 0, n => ⟨Nat.le_refl n, fun m h h' ↦ absurd h' (Nat.not_lt.mpr h), Or.inr rfl⟩
  | fuel + 1, n => by
    rw [freeNumber]
    split
    · next htaken =>
      obtain ⟨hle, hpassed, hend⟩ := freeNumber_cases a fuel (n + 1)
      refine ⟨by omega, fun m hm hm' ↦ ?_, hend.imp_right fun h ↦ by omega⟩
      by_cases hmn : m = n
      · rwa [hmn]
      · exact hpassed m (by omega) hm'
    · next hfree =>
      exact ⟨Nat.le_refl n, fun m h h' ↦ absurd h' (Nat.not_lt.mpr h),
        Or.inl (Bool.eq_false_iff.mpr hfree)⟩

/-- Whether an id is known to the index. -/
theorem contains_eq_true_iff : a.contains id = true ↔ id ∈ a.index.keys := by
  rw [contains, Std.HashMap.mem_keys, Std.HashMap.mem_iff_contains]

private theorem freeNumber_eq (a : Arena) (n : Nat) :
    a.freeNumber a.size n = Draft.freeNumber a.index.keys n := by
  obtain ⟨hle, hpassed, hend⟩ := freeNumber_cases a a.size n
  refine Draft.eq_freeNumber hle (fun m hm hm' ↦ contains_eq_true_iff.mp (hpassed m hm hm'))
    fun htaken ↦ ?_
  have hlast : a.freeNumber a.size n = n + a.size :=
    hend.resolve_left (by rw [contains_eq_true_iff.mpr htaken]; exact Bool.noConfusion)
  obtain ⟨m, hm, hm', hfree⟩ := exists_generatedId_notMem a.index.keys n
  rw [Std.HashMap.length_keys] at hm'
  rcases Nat.eq_or_lt_of_le (show m ≤ a.freeNumber a.size n from hlast ▸ hm') with heq | hlt
  · exact hfree (heq ▸ htaken)
  · exact hfree (contains_eq_true_iff.mp (hpassed m hm hlt))

/-- An id for a new node is a new id beside those in the index, and looking for it changes no more
than the number for the next one. -/
theorem freshId_eq (a : Arena) (requested : String) :
    a.freshId requested = ((Draft.newId a.index.keys a.nextId requested).1,
      { a with nextId := (Draft.newId a.index.keys a.nextId requested).2 }) := by
  have hcondition : (!requested.isEmpty && !a.contains requested) = true ↔
      ¬ (requested = "" ∨ requested ∈ a.index.keys) := by
    rw [Bool.and_eq_true_iff, Bool.not_eq_true', Bool.not_eq_true', not_or, Bool.eq_false_iff,
      Bool.eq_false_iff, Ne, Ne, String.isEmpty_iff, contains_eq_true_iff]
  rw [freshId, Draft.newId]
  by_cases h : requested = "" ∨ requested ∈ a.index.keys
  · rw [if_neg (fun htrue ↦ hcondition.mp htrue h), if_pos h, freeNumber_eq]
  · rw [if_pos (hcondition.mpr h), if_neg h]

/-- Looking for an id changes no more than the number for the next one. -/
theorem freshId_snd (a : Arena) (requested : String) :
    (a.freshId requested).2 = { a with nextId := (a.freshId requested).2.nextId } := by
  rw [freshId_eq]

/-- The id for a new node is no node's yet, and not empty. -/
theorem freshId_spec (a : Arena) (requested : String) :
    (a.freshId requested).1 ≠ "" ∧ a.find? (a.freshId requested).1 = none := by
  obtain ⟨hne, hfree⟩ := Draft.newId_spec a.index.keys a.nextId requested
  rw [freshId_eq]
  refine ⟨hne, ?_⟩
  rw [Std.HashMap.mem_keys] at hfree
  exact Std.HashMap.getElem?_eq_none hfree

end FreshIds

/-- A new id takes no slot. -/
@[simp] theorem size_freshId (requested : String) :
    (a.freshId requested).2.slots.size = a.slots.size := by
  rw [freshId_eq]

namespace IsLinked

/-- The arena without nodes is linked. -/
theorem empty : Arena.empty.IsLinked where
  find?_iff := by simp [Arena.empty, find?, slot?]
  id_ne h := by simp [Arena.empty, slot?] at h
  nodup_roots := List.nodup_nil
  root h := by simp [Arena.empty] at h
  mem_roots h := by simp [Arena.empty, slot?] at h
  parent h := by simp [Arena.empty, slot?] at h
  child h := by simp [Arena.empty, slot?] at h
  nodup_children h := by simp [Arena.empty, slot?] at h
  condition h := by simp [Arena.empty, slot?] at h

variable (ha : a.IsLinked)

include ha

private theorem withNextId (n : Nat) : ({ a with nextId := n } : Arena).IsLinked :=
  ⟨ha.find?_iff, ha.id_ne, ha.nodup_roots, ha.root, ha.mem_roots, ha.parent, ha.child,
    ha.nodup_children, ha.condition⟩

private theorem freshId (requested : String) : (a.freshId requested).2.IsLinked := by
  rw [freshId_snd]
  exact ha.withNextId _

/-- A node has one slot. -/
theorem eq_of_id {t : Slot} (hi : a.slot? i = some s) (hj : a.slot? j = some t)
    (h : s.id = t.id) : i = j :=
  Option.some.inj
    ((ha.find?_iff.mpr ⟨s, hi, rfl⟩).symm.trans (ha.find?_iff.mpr ⟨t, hj, h.symm⟩))

/-- The index leads to a node by its id. -/
theorem find?_id (h : a.slot? i = some s) : a.find? s.id = some i := ha.find?_iff.mpr ⟨s, h, rfl⟩

/-- The slot of a child comes behind that of its parent. -/
theorem lt_child {c : Nat} (h : a.slot? i = some s) (hc : c ∈ s.children) : i < c := by
  obtain ⟨t, ht, hp⟩ := ha.child h hc
  exact (ha.parent ht hp).1

/-- What lists children is a block. -/
theorem isBlock_of_child {c : Nat} (h : a.slot? i = some s) (hc : c ∈ s.children) :
    s.payload.isBlock = true := by
  cases hp : s.payload with
  | block => rfl
  | condition c =>
    rw [(ha.condition h hp).1] at hc
    cases hc

private theorem size_notMem_roots : a.slots.size ∉ a.roots := by
  intro h
  obtain ⟨s, hs, -⟩ := ha.root h
  exact absurd (lt_size_of_slot? hs) (Nat.lt_irrefl _)

private theorem appendNode
    (hparent : ∀ p, parent = some p → ∃ t, a.slot? p = some t ∧ t.payload.isBlock = true)
    (hroot : parent = none → payload.isBlock = true) (hid : id ≠ "") (hfree : a.find? id = none)
    (hcondition : ∀ c, payload = .condition c → c.id = id) :
    (a.appendNode parent id payload).IsLinked := by
  have hlt (p) (hp : parent = some p) : p < a.slots.size := by
    obtain ⟨t, ht, -⟩ := hparent p hp
    exact lt_size_of_slot? ht
  have hleaf : (a.appendNode parent id payload).slot? a.slots.size =
      some ⟨id, parent, [], payload⟩ := by
    rw [slot?_appendNode hlt, if_pos rfl]
  have hnew {j s} (h : a.slot? j = some s) : id ≠ s.id := fun he ↦ by
    rw [he, ha.find?_id h] at hfree
    cases hfree
  have hbehind {i s} (h : a.slot? i = some s) : a.slots.size ∉ s.children := fun hmem ↦ by
    obtain ⟨t, ht, -⟩ := ha.child h hmem
    exact absurd (lt_size_of_slot? ht) (Nat.lt_irrefl _)
  constructor
  case find?_iff =>
    intro id' i
    rw [find?_appendNode]
    constructor
    · intro h
      split at h
      · next he =>
        cases h
        exact ⟨_, hleaf, he⟩
      · obtain ⟨s, hs, rfl⟩ := ha.find?_iff.mp h
        obtain ⟨t, ht, hte, -⟩ := isKeptIn_appendNode hlt _ _ hs
        exact ⟨t, ht, hte⟩
    · rintro ⟨s, hs, rfl⟩
      rcases of_slot?_appendNode hlt hs with ⟨rfl, rfl⟩ | ⟨t, ht, ⟨-, rfl⟩ | ⟨-, rfl⟩⟩
      · exact if_pos rfl
      · exact (if_neg (hnew ht)).trans (ha.find?_id (s := t) ht)
      · exact (if_neg (hnew ht)).trans (ha.find?_id ht)
  case id_ne =>
    intro i s hs
    rcases of_slot?_appendNode hlt hs with ⟨-, rfl⟩ | ⟨t, ht, ⟨-, rfl⟩ | ⟨-, rfl⟩⟩
    · exact hid
    · exact show t.id ≠ "" from ha.id_ne ht
    · exact ha.id_ne ht
  case nodup_roots =>
    rw [roots_appendNode]
    split
    · refine ha.nodup_roots.append (List.nodup_singleton _) ?_
      rw [List.disjoint_singleton]
      exact ha.size_notMem_roots
    · rw [List.append_nil]
      exact ha.nodup_roots
  case root =>
    intro i hi
    rw [roots_appendNode, List.mem_append] at hi
    rcases hi with hi | hi
    · obtain ⟨s, hs, hnone, hb⟩ := ha.root hi
      obtain ⟨t, ht, -, htp, htl, -⟩ := isKeptIn_appendNode hlt _ _ hs
      exact ⟨t, ht, htp.trans hnone, htl ▸ hb⟩
    · split at hi
      · next hnone =>
        rw [List.mem_singleton.mp hi]
        exact ⟨_, hleaf, Option.isNone_iff_eq_none.mp hnone,
          hroot (Option.isNone_iff_eq_none.mp hnone)⟩
      · cases hi
  case mem_roots =>
    intro i s hs hnone
    rw [roots_appendNode, List.mem_append]
    rcases of_slot?_appendNode hlt hs with ⟨rfl, rfl⟩ | ⟨t, ht, ⟨-, rfl⟩ | ⟨-, rfl⟩⟩
    · simp only at hnone
      rw [hnone]
      exact Or.inr List.mem_cons_self
    all_goals exact Or.inl (ha.mem_roots ht hnone)
  case parent =>
    intro i s q hs hq
    have hold {t} (ht : a.slot? i = some t) (hq : t.parent = some q) :
        q < i ∧ ∃ u, (a.appendNode parent id payload).slot? q = some u ∧ i ∈ u.children := by
      obtain ⟨hqi, u, hu, hiu⟩ := ha.parent ht hq
      obtain ⟨v, hv, -, -, -, hsub⟩ := isKeptIn_appendNode hlt _ _ hu
      exact ⟨hqi, v, hv, hsub hiu⟩
    rcases of_slot?_appendNode hlt hs with ⟨rfl, rfl⟩ | ⟨t, ht, ⟨-, rfl⟩ | ⟨-, rfl⟩⟩
    · obtain ⟨t, ht, -⟩ := hparent q hq
      refine ⟨hlt q hq, { t with children := t.children ++ [a.slots.size] }, ?_,
        List.mem_append_right _ List.mem_cons_self⟩
      rw [slot?_appendNode hlt, if_neg (hlt q hq).ne, if_pos hq, ht, Option.map_some]
    all_goals exact hold ht hq
  case child =>
    intro i s c hs hc
    have hold {t} (ht : a.slot? i = some t) (hc : c ∈ t.children) :
        ∃ u, (a.appendNode parent id payload).slot? c = some u ∧ u.parent = some i := by
      obtain ⟨u, hu, hup⟩ := ha.child ht hc
      obtain ⟨v, hv, -, hvp, -⟩ := isKeptIn_appendNode hlt _ _ hu
      exact ⟨v, hv, hvp.trans hup⟩
    rcases of_slot?_appendNode hlt hs with ⟨-, rfl⟩ | ⟨t, ht, ⟨hi, rfl⟩ | ⟨-, rfl⟩⟩
    · cases hc
    · rcases List.mem_append.mp hc with hc | hc
      · exact hold ht hc
      · rw [List.mem_singleton.mp hc]
        exact ⟨_, hleaf, hi⟩
    · exact hold ht hc
  case nodup_children =>
    intro i s hs
    rcases of_slot?_appendNode hlt hs with ⟨-, rfl⟩ | ⟨t, ht, ⟨-, rfl⟩ | ⟨-, rfl⟩⟩
    · exact List.nodup_nil
    · refine (ha.nodup_children ht).append (List.nodup_singleton _) ?_
      rw [List.disjoint_singleton]
      exact hbehind ht
    · exact ha.nodup_children ht
  case condition =>
    intro i s c hs hc
    rcases of_slot?_appendNode hlt hs with ⟨-, rfl⟩ | ⟨t, ht, ⟨hi, rfl⟩ | ⟨-, rfl⟩⟩
    · exact ⟨rfl, hcondition c hc⟩
    · obtain ⟨u, hu, hb⟩ := hparent i hi
      cases ht.symm.trans hu
      rw [show t.payload = .condition c from hc] at hb
      cases hb
    · exact ha.condition ht hc

/-- Changing what a node holds, but neither its kind nor its id, keeps the links. -/
theorem modifySlot {f : Slot → Slot}
    (hf : ∀ s, (f s).id = s.id ∧ (f s).parent = s.parent ∧ (f s).children = s.children)
    (hkind : ∀ s, a.slot? i = some s → (f s).payload.isBlock = s.payload.isBlock)
    (hcondition : ∀ s c, a.slot? i = some s → (f s).payload = .condition c → c.id = s.id) :
    (a.modifySlot i f).IsLinked := by
  have hcases {j s} (h : (a.modifySlot i f).slot? j = some s) :
      ∃ t, a.slot? j = some t ∧ (s = t ∨ (i = j ∧ s = f t)) := by
    rw [slot?_modifySlot] at h
    split at h
    · next hij =>
      obtain ⟨t, ht, rfl⟩ := Option.map_eq_some_iff.mp h
      exact ⟨t, ht, Or.inr ⟨hij, rfl⟩⟩
    · exact ⟨s, h, Or.inl rfl⟩
  have hsame {j s} (h : (a.modifySlot i f).slot? j = some s) :
      ∃ t, a.slot? j = some t ∧ s.id = t.id ∧ s.parent = t.parent ∧ s.children = t.children := by
    obtain ⟨t, ht, rfl | ⟨-, rfl⟩⟩ := hcases h
    · exact ⟨s, ht, rfl, rfl, rfl⟩
    · exact ⟨t, ht, hf t⟩
  have hkept {j t} (h : a.slot? j = some t) :
      ∃ s, (a.modifySlot i f).slot? j = some s ∧ s.id = t.id ∧ s.parent = t.parent ∧
        s.children = t.children ∧ s.payload.isBlock = t.payload.isBlock := by
    rw [slot?_modifySlot, h]
    split
    · next hij => exact ⟨f t, rfl, (hf t).1, (hf t).2.1, (hf t).2.2, hkind t (hij ▸ h)⟩
    · exact ⟨t, rfl, rfl, rfl, rfl, rfl⟩
  constructor
  case find?_iff =>
    intro id j
    rw [show (a.modifySlot i f).find? id = a.find? id from rfl, ha.find?_iff]
    constructor
    · rintro ⟨t, ht, rfl⟩
      obtain ⟨s, hs, hid, -⟩ := hkept ht
      exact ⟨s, hs, hid⟩
    · rintro ⟨s, hs, rfl⟩
      obtain ⟨t, ht, hid, -⟩ := hsame hs
      exact ⟨t, ht, hid.symm⟩
  case id_ne =>
    intro j s hs
    obtain ⟨t, ht, hid, -⟩ := hsame hs
    rw [hid]
    exact ha.id_ne ht
  case nodup_roots => exact ha.nodup_roots
  case root =>
    intro j hj
    obtain ⟨t, ht, hnone, hb⟩ := ha.root hj
    obtain ⟨s, hs, -, hp, -, hkind⟩ := hkept ht
    exact ⟨s, hs, hp.trans hnone, hkind.trans hb⟩
  case mem_roots =>
    intro j s hs hnone
    obtain ⟨t, ht, -, hp, -⟩ := hsame hs
    exact ha.mem_roots ht (hp.symm.trans hnone)
  case parent =>
    intro j s q hs hq
    obtain ⟨t, ht, -, hp, -⟩ := hsame hs
    obtain ⟨hqj, u, hu, hmem⟩ := ha.parent ht (hp.symm.trans hq)
    obtain ⟨v, hv, -, -, hchildren, -⟩ := hkept hu
    exact ⟨hqj, v, hv, hchildren ▸ hmem⟩
  case child =>
    intro j s c hs hc
    obtain ⟨t, ht, -, -, hchildren⟩ := hsame hs
    obtain ⟨u, hu, hup⟩ := ha.child ht (hchildren ▸ hc)
    obtain ⟨v, hv, -, hvp, -⟩ := hkept hu
    exact ⟨v, hv, hvp.trans hup⟩
  case nodup_children =>
    intro j s hs
    obtain ⟨t, ht, -, -, hchildren⟩ := hsame hs
    rw [hchildren]
    exact ha.nodup_children ht
  case condition =>
    intro j s c hs hc
    obtain ⟨t, ht, rfl | ⟨rfl, rfl⟩⟩ := hcases hs
    · exact ha.condition ht hc
    · refine ⟨?_, (hcondition t c ht hc).trans (hf t).1.symm⟩
      have hblock := hkind t ht
      rw [hc] at hblock
      cases hp : t.payload with
      | block => simp [hp, Payload.isBlock] at hblock
      | condition c' => exact (hf t).2.2.trans (ha.condition ht hp).1

end IsLinked

section Insertion

mutual

private theorem size_lt_insertBlock (a : Arena) (parent : Option Nat) : (b : Block) →
    a.slots.size < (a.insertBlock parent b).2.slots.size
  | ⟨id, logic, children, name, mustHold⟩ => by
    have h := size_le_insertChildren
      ((a.freshId id).2.push (a.freshId id).1 parent (.block logic name mustHold)).2
      (a.freshId id).2.slots.size children
    rw [size_push, size_freshId] at h
    rw [insertBlock]
    exact Nat.lt_of_succ_le (size_freshId (a := a) id ▸ h)

private theorem size_le_insertChildren (a : Arena) (p : Nat) : (nodes : List Node) →
    a.slots.size ≤ (a.insertChildren p nodes).slots.size
  | [] => by rw [insertChildren]
  | n :: rest => by
    have h := size_le_insertChildren
      ((a.insertNode (some p) n).2.attach p (a.insertNode (some p) n).1) p rest
    rw [insertChildren]
    exact (size_lt_insertNode a (some p) n).le.trans (le_of_eq_of_le size_modifySlot.symm h)

private theorem size_lt_insertNode (a : Arena) (parent : Option Nat) : (n : Node) →
    a.slots.size < (a.insertNode parent n).2.slots.size
  | .block b => by
    rw [insertNode]
    exact size_lt_insertBlock a parent b
  | .condition c => by
    rw [insertNode, insertCondition, size_push, size_freshId]
    exact Nat.lt_succ_self _

end

/-- A change of arenas that adding nodes behind the first `m` slots does not notice. -/
structure IsApart (m : Nat) (change : Arena → Arena) : Prop where
  freshId : ∀ a requested,
    (change a).freshId requested = ((a.freshId requested).1, change (a.freshId requested).2)
  push : ∀ {a : Arena} id parent payload, m ≤ a.slots.size →
    (change a).push id parent payload =
      ((a.push id parent payload).1, change (a.push id parent payload).2)
  modifySlot : ∀ {a : Arena} {p} f, m ≤ p →
    (change a).modifySlot p f = change (a.modifySlot p f)

namespace IsApart

variable {m : Nat} {change : Arena → Arena} (h : IsApart m change)

include h

mutual

/-- A change that adding nodes does not notice can be made before or after adding a block. -/
theorem insertBlock {a : Arena} (parent : Option Nat) (hm : m ≤ a.slots.size) : (b : Block) →
    (change a).insertBlock parent b =
      ((a.insertBlock parent b).1, change (a.insertBlock parent b).2)
  | ⟨id, logic, children, name, mustHold⟩ => by
    have hsize : m ≤ (a.freshId id).2.slots.size := by rwa [size_freshId]
    rw [Arena.insertBlock, Arena.insertBlock, h.freshId]
    simp only
    rw [h.push _ _ _ hsize]
    simp only [push_fst]
    rw [insertChildren hsize (by rw [size_push]; omega)]

/-- A change that adding nodes does not notice can be made before or after adding children. -/
theorem insertChildren {a : Arena} {p : Nat} (hp : m ≤ p) (hm : m ≤ a.slots.size) :
    (nodes : List Node) →
    (change a).insertChildren p nodes = change (a.insertChildren p nodes)
  | [] => by rw [Arena.insertChildren, Arena.insertChildren]
  | n :: rest => by
    have hlt := size_lt_insertNode a (some p) n
    rw [Arena.insertChildren, Arena.insertChildren, insertNode (some p) hm n]
    simp only
    rw [attach, h.modifySlot _ hp]
    exact insertChildren hp (by rw [size_modifySlot]; omega) rest

/-- A change that adding nodes does not notice can be made before or after adding a node. -/
theorem insertNode {a : Arena} (parent : Option Nat) (hm : m ≤ a.slots.size) : (n : Node) →
    (change a).insertNode parent n = ((a.insertNode parent n).1, change (a.insertNode parent n).2)
  | .block b => by
    rw [Arena.insertNode, Arena.insertNode, insertBlock parent hm b]
  | .condition c => by
    rw [Arena.insertNode, Arena.insertNode, insertCondition, insertCondition, h.freshId]
    simp only
    rw [h.push _ _ _ (by rwa [size_freshId])]

end

end IsApart

/-- Looking for an id looks at the index and the number for the next one only. -/
theorem freshId_congr {b : Arena} (hindex : b.index = a.index) (hnext : b.nextId = a.nextId)
    (requested : String) :
    b.freshId requested =
      ((a.freshId requested).1, { b with nextId := (a.freshId requested).2.nextId }) := by
  rw [freshId_eq, freshId_eq, hindex, hnext]

private theorem isApart_modifySlot (i : Nat) (f : Slot → Slot) :
    IsApart (i + 1) fun a ↦ a.modifySlot i f where
  freshId a requested := by
    rw [freshId_congr (a := a) (b := a.modifySlot i f) rfl rfl]
    refine Prod.ext rfl ?_
    simp only
    rw [freshId_eq]
    rfl
  push id parent payload hm := by
    refine Prod.ext ?_ ?_
    · simp [Arena.push, Arena.modifySlot]
    · simp only [Arena.push, Arena.modifySlot, Arena.mk.injEq, and_true]
      refine ⟨Array.ext_getElem? fun j ↦ ?_, by simp⟩
      simp only [Array.getElem?_push, Array.getElem?_modify, Array.size_modify]
      by_cases hj : i = j
      · subst hj
        simp [Nat.ne_of_lt (Nat.lt_of_succ_le hm)]
      · simp [hj]
  modifySlot f' hm := by
    simp only [Arena.modifySlot, Arena.mk.injEq, and_true]
    refine Array.ext_getElem? fun j ↦ ?_
    simp only [Array.getElem?_modify]
    by_cases hj : i = j
    · subst hj
      simp [Nat.ne_of_gt (Nat.lt_of_succ_le hm)]
    · simp [hj]

private theorem isApart_roots (i : Nat) : IsApart 0 fun a ↦ { a with roots := a.roots ++ [i] } where
  freshId a requested := by
    rw [freshId_congr (a := a) (b := { a with roots := a.roots ++ [i] }) rfl rfl]
    refine Prod.ext rfl ?_
    simp only
    rw [freshId_eq]
  push id parent payload hm := rfl
  modifySlot f hm := rfl

/-- A condition is added as one node. -/
theorem attach_insertCondition (p : Nat) (c : Condition) :
    (a.insertCondition (some p) c).2.attach p (a.insertCondition (some p) c).1 =
      a.appendFresh (some p) c.id fun id ↦ .condition { c with id } :=
  rfl

/-- A block is added as one node, to which its children are added. -/
theorem attach_insertBlock {p : Nat} (hp : p < a.slots.size) (id : String) (logic : Logic)
    (children : List Node) (name : Option String) (mustHold : Bool) :
    let b : Block := ⟨id, logic, children, name, mustHold⟩
    (a.insertBlock (some p) b).2.attach p (a.insertBlock (some p) b).1 =
      (a.appendFresh (some p) id fun _ ↦ .block logic name mustHold).insertChildren a.slots.size
        children := by
  have happart := isApart_modifySlot p fun s ↦ { s with children := s.children ++ [a.slots.size] }
  have hchildren := happart.insertChildren
    (a := ((a.freshId id).2.push (a.freshId id).1 (some p) (.block logic name mustHold)).2)
    (Nat.succ_le_of_lt hp) (by rw [size_push, size_freshId]; omega) children
  simp only [insertBlock, appendFresh, appendNode, push_fst, size_freshId]
  exact hchildren.symm

/-- A root block is added as one node, to which its children are added. -/
theorem pushRoot_eq (id : String) (logic : Logic) (children : List Node) (name : Option String)
    (mustHold : Bool) :
    (a.pushRoot ⟨id, logic, children, name, mustHold⟩).2 =
      (a.appendFresh none id fun _ ↦ .block logic name mustHold).insertChildren a.slots.size
        children := by
  have hchildren := (isApart_roots a.slots.size).insertChildren
    (a := ((a.freshId id).2.push (a.freshId id).1 none (.block logic name mustHold)).2)
    (p := a.slots.size) (Nat.zero_le _) (Nat.zero_le _) children
  simp only [pushRoot, insertBlock, appendFresh, appendNode, push_fst, size_freshId]
  exact hchildren.symm

private theorem isKeptIn_freshId (requested : String) : a.IsKeptIn (a.freshId requested).2 := by
  rw [freshId_eq]
  exact IsKeptIn.refl a

/-- A node with an id that is looked for, under a block or as a root block, keeps the links, and all
nodes their places; it stands in the first slot behind them. -/
theorem IsLinked.appendFresh (ha : a.IsLinked) (parent : Option Nat) (requested : String)
    (payload : String → Payload)
    (hplace : match parent with
      | some p => ∃ t, a.slot? p = some t ∧ t.payload.isBlock = true
      | none => ∀ id, (payload id).isBlock = true)
    (hcondition : ∀ id c, payload id = .condition c → c.id = id) :
    (a.appendFresh parent requested payload).IsLinked ∧
      a.IsKeptIn (a.appendFresh parent requested payload) ∧
      (a.appendFresh parent requested payload).slot? a.slots.size =
        some ⟨(a.freshId requested).1, parent, [], payload (a.freshId requested).1⟩ := by
  have hparent (p) (hp : parent = some p) :
      ∃ t, (a.freshId requested).2.slot? p = some t ∧ t.payload.isBlock = true := by
    rw [freshId_snd]
    subst hp
    exact hplace
  have hlt (p) (hp : parent = some p) : p < (a.freshId requested).2.slots.size := by
    obtain ⟨t, ht, -⟩ := hparent p hp
    exact lt_size_of_slot? ht
  have hfree : (a.freshId requested).2.find? (a.freshId requested).1 = none := by
    rw [freshId_snd]
    exact (a.freshId_spec requested).2
  refine ⟨(ha.freshId requested).appendNode hparent (fun hp ↦ by subst hp; exact hplace _)
    (a.freshId_spec requested).1 hfree (hcondition _), ?_, ?_⟩
  · exact (isKeptIn_freshId requested).trans (isKeptIn_appendNode hlt)
  · rw [Arena.appendFresh, slot?_appendNode hlt, size_freshId, if_pos rfl]

/-- Adding children to a block keeps the links, and all nodes their places. -/
theorem IsLinked.insertChildren {a : Arena} {p : Nat} {t : Slot} (ha : a.IsLinked)
    (ht : a.slot? p = some t) (hblock : t.payload.isBlock = true) : (nodes : List Node) →
    (a.insertChildren p nodes).IsLinked ∧ a.IsKeptIn (a.insertChildren p nodes)
  | [] => by
    rw [Arena.insertChildren]
    exact ⟨ha, IsKeptIn.refl a⟩
  | .condition c :: rest => by
    rw [Arena.insertChildren, insertNode]
    simp only [attach_insertCondition]
    obtain ⟨hb, hkept, -⟩ := ha.appendFresh (some p) c.id (fun id ↦ .condition { c with id })
      ⟨t, ht, hblock⟩ fun id c' h ↦ by cases h; rfl
    obtain ⟨u, hu, -, -, hpayload, -⟩ := hkept p t ht
    obtain ⟨hc, hkept'⟩ := IsLinked.insertChildren hb hu (hpayload ▸ hblock) rest
    exact ⟨hc, hkept.trans hkept'⟩
  | .block ⟨id, logic, children, name, mustHold⟩ :: rest => by
    rw [Arena.insertChildren, insertNode]
    simp only [attach_insertBlock (lt_size_of_slot? ht)]
    obtain ⟨hb, hkept, hnew⟩ := ha.appendFresh (some p) id (fun _ ↦ .block logic name mustHold)
      ⟨t, ht, hblock⟩ fun _ _ h ↦ by cases h
    obtain ⟨hc, hkept'⟩ := IsLinked.insertChildren hb hnew rfl children
    obtain ⟨u, hu, -, -, hpayload, -⟩ := hkept.trans hkept' p t ht
    obtain ⟨hd, hkept''⟩ := IsLinked.insertChildren hc hu (hpayload ▸ hblock) rest
    exact ⟨hd, (hkept.trans hkept').trans hkept''⟩

/-- Adding a root block with its children keeps the links, and all nodes their places. -/
theorem IsLinked.pushRoot (ha : a.IsLinked) (b : Block) :
    (a.pushRoot b).2.IsLinked ∧ a.IsKeptIn (a.pushRoot b).2 := by
  obtain ⟨id, logic, children, name, mustHold⟩ := b
  rw [pushRoot_eq]
  obtain ⟨hb, hkept, hnew⟩ := ha.appendFresh none id (fun _ ↦ .block logic name mustHold)
    (fun _ ↦ rfl) fun _ _ h ↦ by cases h
  obtain ⟨hc, hkept'⟩ := hb.insertChildren hnew rfl children
  exact ⟨hc, hkept.trans hkept'⟩

/-- The arena of a filter is linked. -/
theorem isLinked_ofBlocks (blocks : List Block) : (ofBlocks blocks).IsLinked := by
  have hfold (blocks : List Block) : ∀ a : Arena, a.IsLinked →
      (blocks.foldl (fun a b ↦ (a.pushRoot b).2) a).IsLinked := by
    induction blocks with
    | nil => exact fun a ha ↦ ha
    | cons b rest ih => exact fun a ha ↦ ih _ (ha.pushRoot b).1
  exact hfold blocks empty IsLinked.empty

end Insertion

end Arena
end FilterPipeline
