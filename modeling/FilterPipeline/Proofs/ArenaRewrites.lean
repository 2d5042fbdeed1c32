import FilterPipeline.Filter.Arena
import FilterPipeline.Proofs.ArenaTrees
import FilterPipeline.Proofs.FilterEdits

/-!
# Changes of slots are rewritings of the filter

A node that becomes the last child of a block, a changed payload and a subtree that is cut off are
each a rewriting of the filter that an arena holds. They leave the other nodes in their slots
(`Arena.IsFollowedBy`).
-/

namespace FilterPipeline

/-- A node is rewritten after its children. -/
theorem Slot.rewrite_toNode (f : Block → Block) (g : Condition → Condition) (s : Slot)
    (children : List Node) :
    (s.toNode children).rewrite f g =
      match s.payload with
      | .block logic name mustHold =>
        .block (f ⟨s.id, logic, children.map (Node.rewrite f g), name, mustHold⟩)
      | .condition c => .condition (g c) := by
  rw [Slot.toNode]
  cases s.payload with
  | block => exact congrArg Node.block (Block.rewrite_eq f g _)
  | condition => rfl

private theorem Node.id_rewrite {f : Block → Block} {g : Condition → Condition}
    (hf : ∀ b, (f b).id = b.id) (hg : ∀ c, (g c).id = c.id) (n : Node) :
    (n.rewrite f g).id = n.id := by
  cases n with
  | block b =>
    rw [Node.rewrite, Block.rewrite_eq]
    exact hf _
  | condition c => exact hg c

namespace Arena

variable {a b : Arena} {i p m : Nat} {s t : Slot} {n : Node}

/-- Where the trees below slots are rewritten, the list of them is. -/
theorem treesOf_eq_map {change : Node → Node} {cs : List Nat}
    (h : ∀ c ∈ cs, b.tree? c = (a.tree? c).map change) :
    b.treesOf cs = (a.treesOf cs).map change := by
  rw [treesOf, treesOf, List.map_filterMap]
  exact List.filterMap_congr h

/-- The trees below one slot and others. -/
theorem treesOf_append (a : Arena) (cs ds : List Nat) :
    a.treesOf (cs ++ ds) = a.treesOf cs ++ a.treesOf ds :=
  List.filterMap_append

/-- The trees below the roots tell the blocks. -/
theorem IsLinked.toBlocks_eq (hb : b.IsLinked) {blocks : List Block}
    (h : b.treesOf b.roots = blocks.map .block) : b.toBlocks = blocks := by
  rw [hb.treesOf_roots] at h
  exact List.map_injective_iff.mpr (fun _ _ ↦ Node.block.inj) h

/-- Rewriting the trees below the roots rewrites the filter. -/
theorem IsLinked.toBlocks_eq_map (ha : a.IsLinked) (hb : b.IsLinked) {f : Block → Block}
    {g : Condition → Condition} (hroots : b.roots = a.roots)
    (h : ∀ i s, a.slot? i = some s → b.tree? i = (a.tree? i).map (Node.rewrite f g)) :
    b.toBlocks = a.toBlocks.map (Block.rewrite f g) := by
  refine hb.toBlocks_eq ?_
  have htrees : b.treesOf a.roots = (a.treesOf a.roots).map (Node.rewrite f g) :=
    treesOf_eq_map fun r hr ↦ by
      obtain ⟨s, hs, -⟩ := ha.root hr
      exact h r s hs
  rw [hroots, htrees, ha.treesOf_roots, List.map_map, List.map_map]
  rfl

/-- A tree that comes to a block as its last child is appended there. -/
theorem IsLinked.toBlocks_append (ha : a.IsLinked) (hb : b.IsLinked) (hp : a.slot? p = some t)
    (hblock : t.payload.isBlock = true) (hroots : b.roots = a.roots)
    (hslot : ∀ i s, a.slot? i = some s →
      b.slot? i = some (if i = p then { s with children := s.children ++ [m] } else s))
    (hm : b.tree? m = some n) :
    b.toBlocks = a.toBlocks.map (Block.append t.id n) := by
  refine ha.toBlocks_eq_map hb hroots (ha.slot_induction fun i s hi ih ↦ ?_)
  have hchildren := treesOf_eq_map fun c hc ↦ by
    obtain ⟨u, hu, -⟩ := ha.child hi hc
    exact ih c hc u hu
  rw [hb.tree?_eq_some (hslot i s hi), ha.tree?_eq_some hi, Option.map_some,
    Slot.rewrite_toNode]
  by_cases hip : i = p
  · subst hip
    cases hp.symm.trans hi
    rw [if_pos rfl, treesOf_append, hchildren]
    cases hpayload : t.payload with
    | block => simp [Slot.toNode, treesOf, hm, Block.adopt]
    | condition => simp [hpayload, Payload.isBlock] at hblock
  · have hne : s.id ≠ t.id := fun h ↦ hip (ha.eq_of_id hi hp h)
    rw [if_neg hip, hchildren]
    cases hpayload : s.payload with
    | block => simp [Slot.toNode, hpayload, hne, Block.adopt]
    | condition => simp [Slot.toNode, hpayload]

/-- A tree that comes to the roots as the last one is the last block. -/
theorem IsLinked.toBlocks_push (ha : a.IsLinked) (hb : b.IsLinked)
    (hroots : b.roots = a.roots ++ [m]) (hslot : ∀ i s, a.slot? i = some s → b.slot? i = some s)
    {root : Block} (hm : b.tree? m = some (.block root)) :
    b.toBlocks = a.toBlocks ++ [root] := by
  have htree := ha.slot_induction (motive := fun i _ ↦ b.tree? i = a.tree? i) fun i s hi ih ↦ by
    have hchildren : b.treesOf s.children = a.treesOf s.children :=
      List.filterMap_congr fun c hc ↦ by
        obtain ⟨u, hu, -⟩ := ha.child hi hc
        exact ih c hc u hu
    rw [hb.tree?_eq_some (hslot i s hi), ha.tree?_eq_some hi, hchildren]
  have hold : b.treesOf a.roots = a.treesOf a.roots := List.filterMap_congr fun r hr ↦ by
    obtain ⟨s, hs, -⟩ := ha.root hr
    exact htree r s hs
  refine hb.toBlocks_eq ?_
  rw [hroots, treesOf_append, hold, ha.treesOf_roots, List.map_append]
  simp [treesOf, hm]

/-- A changed payload is a rewritten filter. -/
theorem IsLinked.toBlocks_modifySlot (ha : a.IsLinked) {change : Slot → Slot}
    (hb : (a.modifySlot p change).IsLinked) {f : Block → Block} {g : Condition → Condition}
    (hchildren : ∀ s, (change s).children = s.children)
    (hhere : ∀ children, a.slot? p = some t →
      (change t).toNode (children.map (Node.rewrite f g)) = (t.toNode children).rewrite f g)
    (hthere : ∀ i s children, i ≠ p → a.slot? i = some s →
      s.toNode (children.map (Node.rewrite f g)) = (s.toNode children).rewrite f g)
    (hp : a.slot? p = some t) :
    (a.modifySlot p change).toBlocks = a.toBlocks.map (Block.rewrite f g) := by
  refine ha.toBlocks_eq_map hb rfl (ha.slot_induction fun i s hi ih ↦ ?_)
  have htrees := treesOf_eq_map fun c hc ↦ by
    obtain ⟨u, hu, -⟩ := ha.child hi hc
    exact ih c hc u hu
  have hslot := slot?_modifySlot (a := a) (i := p) (j := i) (f := change)
  rw [ha.tree?_eq_some hi, Option.map_some]
  by_cases hip : p = i
  · subst hip
    cases hp.symm.trans hi
    rw [if_pos rfl, hi, Option.map_some] at hslot
    rw [hb.tree?_eq_some hslot, hchildren, htrees, hhere _ hi]
  · rw [if_neg hip, hi] at hslot
    rw [hb.tree?_eq_some hslot, htrees, hthere i s _ (Ne.symm hip) hi]

private theorem IsLinked.treesOf_filter (ha : a.IsLinked) (hi : a.slot? i = some s)
    (cs : List Nat) :
    a.treesOf (cs.filter (· != i)) = (a.treesOf cs).filter (·.id != s.id) := by
  rw [treesOf, treesOf, List.filter_filterMap, List.filterMap_filter]
  refine List.filterMap_congr fun c _ ↦ ?_
  cases hc : a.tree? c with
  | none => simp
  | some n =>
    obtain ⟨t, ht, rfl⟩ := ha.of_tree? hc
    by_cases hci : c = i
    · subst hci
      cases ht.symm.trans hi
      simp [Option.filter, ha.id_toNode hi]
    · have hne : t.id ≠ s.id := fun h ↦ hci (ha.eq_of_id ht hi h)
      simp [Option.filter, ha.id_toNode ht, hci, hne]

/-- A node that is cut off is erased. -/
theorem IsCut.toBlocks_eq (ha : a.IsLinked) (hi : a.slot? i = some s) (h : a.IsCut i b) :
    b.toBlocks = (a.toBlocks.filter (·.id != s.id)).map (Block.erase s.id) := by
  have hb := h.isLinked ha
  have hid (n : Node) : (n.rewrite (Block.disown s.id) fun c ↦ c).id = n.id :=
    Node.id_rewrite (f := Block.disown s.id) (fun _ ↦ rfl) (fun _ ↦ rfl) n
  have htree := ha.slot_induction (motive := fun j _ ↦ ¬ a.IsBelow i j →
      b.tree? j = (a.tree? j).map (Node.rewrite (Block.disown s.id) fun c ↦ c))
    fun j t hj ih hkept ↦ by
      have hslot := h.slot?_kept hkept
      rw [hj, Option.map_some] at hslot
      have hchildren : b.treesOf (t.children.filter (· != i)) =
          ((a.treesOf t.children).filter (·.id != s.id)).map
            (Node.rewrite (Block.disown s.id) fun c ↦ c) := by
        rw [← ha.treesOf_filter hi]
        refine treesOf_eq_map fun c hc ↦ ?_
        rw [List.mem_filter, bne_iff_ne] at hc
        obtain ⟨u, hu, -⟩ := ha.child hj hc.1
        refine ih c hc.1 u hu fun hbelow ↦ ?_
        rcases (ha.isBelow_child_iff hj hc.1).mp hbelow with heq | hbelow
        · exact hc.2 heq.symm
        · exact hkept hbelow
      rw [hb.tree?_eq_some hslot, ha.tree?_eq_some hj, Option.map_some, Slot.rewrite_toNode]
      cases hpayload : t.payload with
      | block =>
        simp only [Slot.toNode, hchildren, Block.disown, List.filter_map,
          Function.comp_def, hid]
      | condition => simp [Slot.toNode]
  refine hb.toBlocks_eq ?_
  rw [h.roots]
  have hroots : b.treesOf (a.roots.filter (· != i)) =
      ((a.treesOf a.roots).filter (·.id != s.id)).map
        (Node.rewrite (Block.disown s.id) fun c ↦ c) := by
    rw [← ha.treesOf_filter hi]
    refine treesOf_eq_map fun r hr ↦ ?_
    rw [List.mem_filter, bne_iff_ne] at hr
    obtain ⟨u, hu, hnone, -⟩ := ha.root hr.1
    refine htree r u hu fun hbelow ↦ ?_
    cases hbelow with
    | refl => exact hr.2 rfl
    | child hs hp _ =>
      cases hs.symm.trans hu
      cases hnone.symm.trans hp
  rw [hroots, ha.treesOf_roots, List.filter_map, List.map_map, List.map_map]
  rfl

/-- Arena `b` comes after `a`: what was there keeps its slot, id and parent or is gone, and no root
has lost its last child. -/
structure IsFollowedBy (a b : Arena) : Prop where
  size_le : a.slots.size ≤ b.slots.size
  of_slot? : ∀ {j t}, j < a.slots.size → b.slot? j = some t → ∃ s, a.slot? j = some s ∧
    t.id = s.id ∧ t.parent = s.parent ∧ (s.parent = none → s.children ≠ [] → t.children ≠ [])

/-- An arena comes after itself. -/
theorem IsFollowedBy.refl (a : Arena) : a.IsFollowedBy a where
  size_le := Nat.le_refl _
  of_slot? _ h := ⟨_, h, rfl, rfl, fun _ h ↦ h⟩

/-- What comes after a later arena comes after the earlier one. -/
theorem IsFollowedBy.trans {c : Arena} (hab : a.IsFollowedBy b) (hbc : b.IsFollowedBy c) :
    a.IsFollowedBy c where
  size_le := hab.size_le.trans hbc.size_le
  of_slot? hj hu := by
    obtain ⟨t, ht, hid, hparent, hchildren⟩ := hbc.of_slot? (hj.trans_le hab.size_le) hu
    obtain ⟨s, hs, hid', hparent', hchildren'⟩ := hab.of_slot? hj ht
    exact ⟨s, hs, hid.trans hid', hparent.trans hparent', fun hnone hne ↦
      hchildren (hparent'.trans hnone) (hchildren' hnone hne)⟩

/-- Changing a slot, but neither its id nor its links, leaves all nodes in place. -/
theorem isFollowedBy_modifySlot {change : Slot → Slot}
    (h : ∀ s, (change s).id = s.id ∧ (change s).parent = s.parent ∧
      (change s).children = s.children) : a.IsFollowedBy (a.modifySlot i change) where
  size_le := size_modifySlot.ge
  of_slot? {j t} _ ht := by
    rw [slot?_modifySlot] at ht
    split at ht
    · obtain ⟨s, hs, rfl⟩ := Option.map_eq_some_iff.mp ht
      exact ⟨s, hs, (h s).1, (h s).2.1, fun _ hne ↦ (h s).2.2 ▸ hne⟩
    · exact ⟨t, ht, rfl, rfl, fun _ hne ↦ hne⟩

/-- Taking one node off a list without repetitions leaves nothing only if there is nothing else. -/
theorem filter_bne_eq_nil_iff {l : List Nat} (h : l.Nodup) :
    l.filter (· != i) = [] ↔ l = [] ∨ l = [i] := by
  cases l with
  | nil => simp
  | cons c rest =>
    rw [List.filter_eq_nil_iff]
    constructor
    · intro hall
      have heq (d) (hd : d ∈ c :: rest) : d = i := by simpa using hall d hd
      have hrest : rest = [] := List.eq_nil_iff_forall_not_mem.mpr fun d hd ↦
        (List.nodup_cons.mp h).1
          ((heq c List.mem_cons_self).trans (heq d (List.mem_cons_of_mem _ hd)).symm ▸ hd)
      rw [heq c List.mem_cons_self, hrest]
      exact Or.inr rfl
    · rintro (hnil | hlone)
      · cases hnil
      · simp [hlone]

/-- What comes after a cut comes after the arena before it, if a root whose only child was cut off
has one again. -/
theorem IsCut.isFollowedBy (ha : a.IsLinked) (h : a.IsCut i b) {c : Arena}
    (hbc : b.IsFollowedBy c)
    (hleft : ∀ {q s t}, q ∈ a.roots → a.slot? q = some s → s.children = [i] →
      c.slot? q = some t → t.children ≠ []) : a.IsFollowedBy c where
  size_le := h.size ▸ hbc.size_le
  of_slot? hj hu := by
    obtain ⟨t, ht, hid, hparent, hchildren⟩ := hbc.of_slot? (h.size ▸ hj) hu
    obtain ⟨-, s, hs, rfl⟩ := h.of_slot? ht
    refine ⟨s, hs, hid, hparent, fun hnone hne ↦ ?_⟩
    by_cases hlone : s.children = [i]
    · exact hleft (ha.mem_roots hs hnone) hs hlone hu
    · refine hchildren hnone fun hnil ↦ ?_
      exact ((filter_bne_eq_nil_iff (ha.nodup_children hs)).mp hnil).elim hne hlone

end Arena
end FilterPipeline
