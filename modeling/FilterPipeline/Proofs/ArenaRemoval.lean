import FilterPipeline.Proofs.ArenaLinks

/-!
# Removing nodes from an arena

Removing a node empties its slot and those of all nodes below it, takes them out of the index, and
takes the node off the list that it stands in. Main statements: the walk that empties slots empties
just those, and what is left is linked.
-/

namespace FilterPipeline
namespace Arena

/-- The node in slot `j` is the one in slot `i` or lies below it. -/
inductive IsBelow (a : Arena) (i : Nat) : Nat → Prop
  | refl : IsBelow a i i
  | child {j p : Nat} {s : Slot} :
    a.slot? j = some s → s.parent = some p → IsBelow a i p → IsBelow a i j

/-- An arena `b` is what `a` is without the nodes in some slots; lists of children still name
them. -/
structure IsWithout (a : Arena) (gone : Nat → Prop) (b : Arena) : Prop where
  slot?_gone : ∀ {j}, gone j → b.slot? j = none
  slot?_kept : ∀ {j}, ¬ gone j → b.slot? j = a.slot? j
  find?_iff : ∀ {id j}, b.find? id = some j ↔ a.find? id = some j ∧ ¬ gone j
  roots : b.roots = a.roots
  nextId : b.nextId = a.nextId
  size : b.slots.size = a.slots.size

/-- Empties a slot, whose node has an id. -/
def emptySlot (a : Arena) (i : Nat) (id : String) : Arena :=
  { a with slots := a.slots.setIfInBounds i none, index := a.index.erase id }

variable {a b : Arena} {gone : Nat → Prop} {i j : Nat} {id : String} {s : Slot}

private theorem slot?_emptySlot : (a.emptySlot i id).slot? j = if i = j then none else a.slot? j :=
  slot?_setIfInBounds

private theorem find?_emptySlot {id' : String} :
    (a.emptySlot i id).find? id' = if id = id' then none else a.find? id' := by
  simp [emptySlot, find?, Std.HashMap.getElem?_erase]

/-- Nothing is gone from an arena itself. -/
theorem IsWithout.refl (a : Arena) : a.IsWithout (fun _ ↦ False) a where
  slot?_gone h := h.elim
  slot?_kept _ := rfl
  find?_iff := by simp
  roots := rfl
  nextId := rfl
  size := rfl

namespace IsLinked

variable (ha : a.IsLinked)

include ha

/-- What lies below a node comes behind it. -/
theorem le_of_isBelow (h : a.IsBelow i j) : i ≤ j := by
  induction h with
  | refl => exact Nat.le_refl i
  | child hj hp _ ih => exact ih.trans (ha.parent hj hp).1.le

/-- A listed child lies below another node if it is that node or its parent does. -/
theorem isBelow_child_iff {c : Nat} (hj : a.slot? j = some s) (hc : c ∈ s.children) :
    a.IsBelow i c ↔ i = c ∨ a.IsBelow i j := by
  obtain ⟨t, ht, hp⟩ := ha.child hj hc
  constructor
  · intro h
    cases h with
    | refl => exact Or.inl rfl
    | child hc' hp' h =>
      cases hc'.symm.trans ht
      cases hp'.symm.trans hp
      exact Or.inr h
  · rintro (rfl | h)
    · exact .refl
    · exact .child ht hp h

/-- What lies below a node is the node itself or lies below one of its children. -/
theorem isBelow_iff (hi : a.slot? i = some s) :
    a.IsBelow i j ↔ j = i ∨ ∃ c ∈ s.children, a.IsBelow c j := by
  constructor
  · intro h
    induction h with
    | refl => exact Or.inl rfl
    | @child j p t hj hp _ ih =>
      rcases ih with rfl | ⟨c, hc, hbelow⟩
      · obtain ⟨-, u, hu, hmem⟩ := ha.parent hj hp
        cases hu.symm.trans hi
        exact Or.inr ⟨j, hmem, .refl⟩
      · exact Or.inr ⟨c, hc, .child hj hp hbelow⟩
  · rintro (rfl | ⟨c, hc, h⟩)
    · exact .refl
    · induction h with
      | refl => exact (ha.isBelow_child_iff hi hc).mpr (Or.inr .refl)
      | child hj hp _ ih => exact .child hj hp ih

/-- Nothing lies below two children of a node. -/
theorem eq_of_isBelow {c d : Nat} (hi : a.slot? i = some s) (hc : c ∈ s.children)
    (hd : d ∈ s.children) (hcj : a.IsBelow c j) (hdj : a.IsBelow d j) : c = d := by
  induction hcj with
  | refl =>
    rcases (ha.isBelow_child_iff hi hc).mp hdj with h | h
    · exact h.symm
    · exact absurd (ha.le_of_isBelow h) (Nat.not_le.mpr (ha.lt_child hi hd))
  | @child j p t hj hp hcp ih =>
    cases hdj with
    | refl =>
      rcases (ha.isBelow_child_iff hi hd).mp (.child hj hp hcp) with h | h
      · exact h
      · exact absurd (ha.le_of_isBelow h) (Nat.not_le.mpr (ha.lt_child hi hc))
    | child hj' hp' h =>
      cases hj'.symm.trans hj
      cases hp'.symm.trans hp
      exact ih h

private theorem isWithout_emptySlot (hi : a.slot? i = some s) (hb : a.IsWithout gone b) :
    a.IsWithout (fun j ↦ gone j ∨ j = i) (b.emptySlot i s.id) := by
  constructor
  case slot?_gone =>
    rintro j (hj | rfl)
    · rw [slot?_emptySlot, hb.slot?_gone hj, ite_self]
    · rw [slot?_emptySlot, if_pos rfl]
  case slot?_kept =>
    intro j hj
    rw [not_or] at hj
    rw [slot?_emptySlot, if_neg (Ne.symm hj.2), hb.slot?_kept hj.1]
  case find?_iff =>
    intro id j
    rw [find?_emptySlot]
    split
    · next heq =>
      simp only [reduceCtorEq, false_iff, not_and, not_not]
      intro hid
      exact Or.inr (Option.some.inj ((ha.find?_id hi).symm.trans (heq ▸ hid))).symm
    · next hne =>
      rw [hb.find?_iff, not_or]
      refine and_congr_right fun hid ↦ (and_iff_left ?_).symm
      rintro rfl
      obtain ⟨t, ht, rfl⟩ := ha.find?_iff.mp hid
      cases ht.symm.trans hi
      exact hne rfl
  case roots => exact hb.roots
  case nextId => exact hb.nextId
  case size => exact Array.size_setIfInBounds.trans hb.size

private theorem isWithout_foldl (drop : Arena → Nat → Arena) (hi : a.slot? i = some s)
    (hdrop : ∀ b gone c, c ∈ s.children → a.IsWithout gone b →
      (∀ j, a.IsBelow c j → ¬ gone j) → a.IsWithout (fun j ↦ gone j ∨ a.IsBelow c j) (drop b c)) :
    (cs : List Nat) → (b : Arena) → (gone : Nat → Prop) → cs ⊆ s.children → cs.Nodup →
      a.IsWithout gone b → (∀ c ∈ cs, ∀ j, a.IsBelow c j → ¬ gone j) →
      a.IsWithout (fun j ↦ gone j ∨ ∃ c ∈ cs, a.IsBelow c j) (cs.foldl drop b)
  | [], b, gone, _, _, hb, _ => by simpa using hb
  | c :: cs, b, gone, hsub, hnodup, hb, hkept => by
    have hstep := hdrop b gone c (hsub List.mem_cons_self) hb (hkept c List.mem_cons_self)
    have hrest := isWithout_foldl drop hi hdrop cs _ _ (List.subset_of_cons_subset hsub)
      (List.nodup_cons.mp hnodup).2 hstep fun d hd j hdj hgone ↦ by
        rcases hgone with hgone | hcj
        · exact hkept d (List.mem_cons_of_mem _ hd) j hdj hgone
        · have heq := ha.eq_of_isBelow hi (hsub List.mem_cons_self)
            (hsub (List.mem_cons_of_mem _ hd)) hcj hdj
          exact (List.nodup_cons.mp hnodup).1 (heq ▸ hd)
    simpa only [List.foldl_cons, List.mem_cons, exists_eq_or_imp, or_assoc] using hrest

end IsLinked

/-- Emptying slots from one on empties that one and those below it, when there are levels enough and
none of them is empty already. -/
theorem isWithout_dropTree (ha : a.IsLinked) : (levels : Nat) → (b : Arena) →
    (gone : Nat → Prop) → (i : Nat) → a.slots.size ≤ levels + i → a.IsWithout gone b →
    (a.slot? i).isSome = true → (∀ j, a.IsBelow i j → ¬ gone j) →
    a.IsWithout (fun j ↦ gone j ∨ a.IsBelow i j) (dropTree levels b i)
  | 0, _, _, i, hlevels, _, hi, _ => by
    rw [slot?_eq_none (by omega)] at hi
    cases hi
  | levels + 1, b, gone, i, hlevels, hb, hi, hkept => by
    obtain ⟨s, hs⟩ := Option.isSome_iff_exists.mp hi
    have hchildren := ha.isWithout_foldl (dropTree levels) hs
      (fun b gone c hc hb hkept ↦ by
        obtain ⟨t, ht, -⟩ := ha.child hs hc
        have := ha.lt_child hs hc
        exact isWithout_dropTree ha levels b gone c (by omega) hb (by rw [ht]; rfl) hkept)
      s.children _ _ (List.Subset.refl _) (ha.nodup_children hs) (ha.isWithout_emptySlot hs hb)
      fun c hc j hcj hgone ↦ by
        rcases hgone with hgone | rfl
        · exact hkept j ((ha.isBelow_iff hs).mpr (Or.inr ⟨c, hc, hcj⟩)) hgone
        · exact absurd (ha.le_of_isBelow hcj) (Nat.not_le.mpr (ha.lt_child hs hc))
    have hgone : (fun j ↦ (gone j ∨ j = i) ∨ ∃ c ∈ s.children, a.IsBelow c j) =
        fun j ↦ gone j ∨ a.IsBelow i j :=
      funext fun j ↦ propext (by rw [ha.isBelow_iff hs, or_assoc])
    rw [hgone] at hchildren
    rwa [dropTree, (hb.slot?_kept (hkept i .refl)).trans hs]

/-- An arena `b` is what `a` is without a node and those below it. -/
structure IsCut (a : Arena) (i : Nat) (b : Arena) : Prop where
  slot?_below : ∀ {j}, a.IsBelow i j → b.slot? j = none
  slot?_kept : ∀ {j}, ¬ a.IsBelow i j →
    b.slot? j = (a.slot? j).map fun s ↦ { s with children := s.children.filter (· != i) }
  find?_iff : ∀ {id j}, b.find? id = some j ↔ a.find? id = some j ∧ ¬ a.IsBelow i j
  roots : b.roots = a.roots.filter (· != i)
  nextId : b.nextId = a.nextId
  size : b.slots.size = a.slots.size

/-- Where a child is not listed, taking it off the list changes nothing. -/
theorem filter_children {s : Slot} (h : i ∉ s.children) :
    { s with children := s.children.filter (· != i) } = s := by
  rw [List.filter_eq_self.mpr]
  intro c hc
  simpa using fun heq : c = i ↦ h (heq ▸ hc)

/-- Emptying the slots of a root block and of what lies below it, and taking it off the roots, cuts
it off. -/
theorem IsLinked.isCut_root (ha : a.IsLinked) (hi : a.slot? i = some s) (hroot : s.parent = none) :
    a.IsCut i { dropTree a.slots.size a i with
      roots := (dropTree a.slots.size a i).roots.filter (· != i) } := by
  have hb := isWithout_dropTree ha a.slots.size a (fun _ ↦ False) i (Nat.le_add_right _ _)
    (IsWithout.refl a) (by rw [hi]; rfl) fun _ _ h ↦ h
  simp only [false_or] at hb
  have hunlisted {j t} (ht : a.slot? j = some t) : i ∉ t.children := fun hmem ↦ by
    obtain ⟨u, hu, hp⟩ := ha.child ht hmem
    cases hu.symm.trans hi
    rw [hroot] at hp
    cases hp
  constructor
  case slot?_below => exact fun h ↦ hb.slot?_gone h
  case slot?_kept =>
    intro j hj
    refine (hb.slot?_kept hj).trans ?_
    cases ht : a.slot? j with
    | none => rfl
    | some t => rw [Option.map_some, filter_children (hunlisted ht)]
  case find?_iff => exact hb.find?_iff
  case roots => rw [← hb.roots]
  case nextId => exact hb.nextId
  case size => exact hb.size

/-- Emptying the slots of a child and of what lies below it, and taking it off its parent's list,
cuts it off. -/
theorem IsLinked.isCut_child (ha : a.IsLinked) {p : Nat} (hi : a.slot? i = some s)
    (hp : s.parent = some p) :
    a.IsCut i ((dropTree a.slots.size a i).modifySlot p
      fun s ↦ { s with children := s.children.filter (· != i) }) := by
  have hb := isWithout_dropTree ha a.slots.size a (fun _ ↦ False) i (Nat.le_add_right _ _)
    (IsWithout.refl a) (by rw [hi]; rfl) fun _ _ h ↦ h
  simp only [false_or] at hb
  have hunlisted {j t} (ht : a.slot? j = some t) (hj : p ≠ j) : i ∉ t.children := fun hmem ↦ by
    obtain ⟨u, hu, hpu⟩ := ha.child ht hmem
    cases hu.symm.trans hi
    exact hj (Option.some.inj (hp.symm.trans hpu))
  constructor
  case slot?_below =>
    intro j hj
    rw [slot?_modifySlot, hb.slot?_gone hj, Option.map_none, ite_self]
  case slot?_kept =>
    intro j hj
    rw [slot?_modifySlot, hb.slot?_kept hj]
    split
    · rfl
    · next hpj =>
      cases ht : a.slot? j with
      | none => rfl
      | some t => rw [Option.map_some, filter_children (hunlisted ht hpj)]
  case find?_iff => exact hb.find?_iff
  case roots =>
    refine hb.roots.trans (List.filter_eq_self.mpr fun r hr ↦ ?_).symm
    rw [bne_iff_ne]
    rintro rfl
    obtain ⟨t, ht, hnone, -⟩ := ha.root hr
    cases ht.symm.trans hi
    rw [hp] at hnone
    cases hnone
  case nextId => exact hb.nextId
  case size => exact size_modifySlot.trans hb.size

namespace IsCut

variable (h : a.IsCut i b)

include h

/-- What is left was there before. -/
theorem of_slot? {t : Slot} (ht : b.slot? j = some t) :
    ¬ a.IsBelow i j ∧ ∃ s, a.slot? j = some s ∧
      t = { s with children := s.children.filter (· != i) } := by
  have hj : ¬ a.IsBelow i j := fun hbelow ↦ by
    rw [h.slot?_below hbelow] at ht
    cases ht
  rw [h.slot?_kept hj] at ht
  obtain ⟨s, hs, rfl⟩ := Option.map_eq_some_iff.mp ht
  exact ⟨hj, s, hs, rfl⟩

/-- Cutting a node off keeps the links. -/
theorem isLinked (ha : a.IsLinked) : b.IsLinked := by
  have hkept {j s} (hj : ¬ a.IsBelow i j) (hs : a.slot? j = some s) :
      b.slot? j = some { s with children := s.children.filter (· != i) } := by
    rw [h.slot?_kept hj, hs, Option.map_some]
  constructor
  case find?_iff =>
    intro id j
    rw [h.find?_iff]
    constructor
    · rintro ⟨hid, hj⟩
      obtain ⟨s, hs, hsid⟩ := ha.find?_iff.mp hid
      exact ⟨_, hkept hj hs, hsid⟩
    · rintro ⟨t, ht, rfl⟩
      obtain ⟨hj, s, hs, rfl⟩ := h.of_slot? ht
      exact ⟨ha.find?_id (s := s) hs, hj⟩
  case id_ne =>
    intro j t ht
    obtain ⟨-, s, hs, rfl⟩ := h.of_slot? ht
    exact show s.id ≠ "" from ha.id_ne hs
  case nodup_roots =>
    rw [h.roots]
    exact ha.nodup_roots.filter _
  case root =>
    intro r hr
    rw [h.roots, List.mem_filter, bne_iff_ne] at hr
    obtain ⟨s, hs, hnone, hblock⟩ := ha.root hr.1
    refine ⟨_, hkept (fun hbelow ↦ ?_) hs, hnone, hblock⟩
    cases hbelow with
    | refl => exact hr.2 rfl
    | child hs' hp _ =>
      cases hs'.symm.trans hs
      rw [hnone] at hp
      cases hp
  case mem_roots =>
    intro j t ht hnone
    obtain ⟨hj, s, hs, rfl⟩ := h.of_slot? ht
    rw [h.roots, List.mem_filter, bne_iff_ne]
    refine ⟨ha.mem_roots hs hnone, ?_⟩
    rintro rfl
    exact hj .refl
  case parent =>
    intro j t p ht hp
    obtain ⟨hj, s, hs, rfl⟩ := h.of_slot? ht
    obtain ⟨hpj, u, hu, hmem⟩ := ha.parent hs hp
    refine ⟨hpj, _, hkept (fun hbelow ↦ hj (.child hs hp hbelow)) hu, ?_⟩
    rw [List.mem_filter, bne_iff_ne]
    refine ⟨hmem, ?_⟩
    rintro rfl
    exact hj .refl
  case child =>
    intro j t c ht hc
    obtain ⟨hj, s, hs, rfl⟩ := h.of_slot? ht
    rw [List.mem_filter, bne_iff_ne] at hc
    obtain ⟨u, hu, hp⟩ := ha.child hs hc.1
    refine ⟨_, hkept (fun hbelow ↦ ?_) hu, hp⟩
    rcases (ha.isBelow_child_iff hs hc.1).mp hbelow with heq | hbelow
    · exact hc.2 heq.symm
    · exact hj hbelow
  case nodup_children =>
    intro j t ht
    obtain ⟨-, s, hs, rfl⟩ := h.of_slot? ht
    exact (ha.nodup_children hs).filter _
  case condition =>
    intro j t c ht hc
    obtain ⟨-, s, hs, rfl⟩ := h.of_slot? ht
    obtain ⟨hnil, hid⟩ := ha.condition hs hc
    exact ⟨by rw [hnil, List.filter_nil], hid⟩

end IsCut

end Arena
end FilterPipeline
