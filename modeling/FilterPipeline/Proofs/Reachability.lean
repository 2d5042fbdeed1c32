import FilterPipeline.Names
import Mathlib.Data.Finset.Card
import Mathlib.Data.Finset.SDiff
import Mathlib.Logic.Relation

/-!
# Reachability of names

Main statement: where every name that refers to another is one of at most `rounds` names,
`reachable` finds exactly the names that a chain of references leads to. Names that do not lead to
themselves can be ranked below those that refer to them.
-/

namespace FilterPipeline

open Relation

/-- The first name refers to the second. -/
def Refers (next : String → List String) (a b : String) : Prop := b ∈ next a

variable {next : String → List String}

private theorem subset_spread (rounds : Nat) (reached frontier : List String) :
    reached ⊆ spread next rounds reached frontier := by
  induction rounds generalizing reached frontier with
  | zero => exact List.Subset.refl reached
  | succ rounds ih =>
    simp only [spread]
    split
    · exact List.Subset.refl reached
    · intro x hx
      exact ih _ _ (List.mem_append_left _ hx)

private theorem forall_mem_spread {P : String → Prop} (hnext : ∀ a b, P a → Refers next a b → P b)
    (rounds : Nat) (reached frontier : List String) (hr : ∀ x ∈ reached, P x)
    (hf : ∀ x ∈ frontier, P x) : ∀ x ∈ spread next rounds reached frontier, P x := by
  induction rounds generalizing reached frontier with
  | zero => exact hr
  | succ rounds ih =>
    simp only [spread]
    split
    · exact hr
    · have hfresh : ∀ x ∈ ((frontier.flatMap next).filter (!reached.contains ·)).eraseDups,
          P x := by
        intro x hx
        rw [List.mem_eraseDups, List.mem_filter] at hx
        obtain ⟨a, ha, hax⟩ := List.mem_flatMap.mp hx.1
        exact hnext a x (hf a ha) hax
      apply ih _ _ _ hfresh
      intro x hx
      rcases List.mem_append.mp hx with h | h
      · exact hr x h
      · exact hfresh x h

/-- How many of some names have not been met. -/
def unmet (names met : List String) : Nat := (names.toFinset \ met.toFinset).card

private theorem unmet_nil_le (names : List String) : unmet names [] ≤ names.length := by
  simpa [unmet] using names.toFinset_card_le

/-- Meeting more leaves no more unmet. -/
theorem unmet_le {names met after : List String} (h : met ⊆ after) :
    unmet names after ≤ unmet names met := by
  refine Finset.card_le_card (Finset.sdiff_subset_sdiff (Finset.Subset.refl _) fun x hx ↦ ?_)
  exact List.mem_toFinset.mpr (h (List.mem_toFinset.mp hx))

/-- Meeting a new one of the names leaves fewer unmet. -/
theorem unmet_lt {names met after : List String} {a : String} (ha : a ∈ names) (hnew : a ∉ met)
    (hmet : a ∈ after) (h : met ⊆ after) : unmet names after < unmet names met := by
  refine Finset.card_lt_card ((Finset.ssubset_iff_of_subset ?_).mpr ⟨a, ?_, ?_⟩)
  · refine Finset.sdiff_subset_sdiff (Finset.Subset.refl _) fun x hx ↦ ?_
    exact List.mem_toFinset.mpr (h (List.mem_toFinset.mp hx))
  · simp [ha, hnew]
  · simp [hmet]

/-- Where no name is left unmet, each has been met. -/
theorem mem_of_unmet_eq_zero {names met : List String} (h : unmet names met = 0) {a : String}
    (ha : a ∈ names) : a ∈ met := by
  by_contra hnew
  have hmem : a ∈ names.toFinset \ met.toFinset := by simp [ha, hnew]
  rw [Finset.card_eq_zero.mp h] at hmem
  simp at hmem

/-- Spreading ends in a set that references do not leave. A round that finds something new has a
name in its frontier that refers to others, and such a name is in no later frontier: the names of
`referrers` that are not `done` bound the rounds. -/
theorem spread_closed {referrers : List String} (href : ∀ a b, Refers next a b → a ∈ referrers)
    (rounds : Nat) (done frontier : List String) (hrounds : unmet referrers done ≤ rounds)
    (hdone : ∀ a ∈ done, ∀ b, Refers next a b → b ∈ done ++ frontier) {a b : String}
    (ha : a ∈ spread next rounds (done ++ frontier) frontier) (hab : Refers next a b) :
    b ∈ spread next rounds (done ++ frontier) frontier := by
  induction rounds generalizing done frontier with
  | zero => exact hdone a (mem_of_unmet_eq_zero (Nat.le_zero.mp hrounds) (href a b hab)) b hab
  | succ rounds ih =>
    simp only [spread] at ha ⊢
    have hmem : ∀ c ∈ frontier, ∀ d, Refers next c d → d ∉ done ++ frontier →
        d ∈ ((frontier.flatMap next).filter (!(done ++ frontier).contains ·)).eraseDups := by
      intro c hc d hcd hd
      rw [List.mem_eraseDups, List.mem_filter]
      exact ⟨List.mem_flatMap.mpr ⟨c, hc, hcd⟩, by simpa using hd⟩
    generalize hfresh : ((frontier.flatMap next).filter
      (!(done ++ frontier).contains ·)).eraseDups = fresh at ha hmem ⊢
    split at ha
    · next he =>
      rw [if_pos he]
      by_contra hb
      rcases List.mem_append.mp ha with h | h
      · exact hb (hdone a h b hab)
      · have := hmem a h b hab hb
        simp [List.isEmpty_iff.mp he] at this
    · next he =>
      rw [if_neg he]
      apply ih (done ++ frontier) fresh _ _ ha
      · obtain ⟨d, hd⟩ := List.exists_mem_of_ne_nil fresh (by simpa using he)
        rw [← hfresh, List.mem_eraseDups, List.mem_filter] at hd
        obtain ⟨c, hc, hcd⟩ := List.mem_flatMap.mp hd.1
        have hnew : d ∉ done ++ frontier := by simpa using hd.2
        have hcdone : c ∉ done := fun h ↦ hnew (hdone c h d hcd)
        have hlt : unmet referrers (done ++ frontier) < unmet referrers done :=
          unmet_lt (href c d hcd) hcdone (List.mem_append_right _ hc)
            (List.subset_append_left _ _)
        omega
      · intro c hc d hcd
        by_cases hd : d ∈ done ++ frontier
        · exact List.mem_append_left _ hd
        · rcases List.mem_append.mp hc with h | h
          · exact absurd (hdone c h d hcd) hd
          · exact List.mem_append_right _ (hmem c h d hcd hd)

/-- What is reachable is what a chain of references leads to. -/
theorem mem_reachable_iff (referrers : List String) {rounds : Nat}
    (href : ∀ a b, Refers next a b → a ∈ referrers) (hrounds : referrers.length ≤ rounds)
    {seeds : List String} {b : String} :
    b ∈ reachable next rounds seeds ↔ ∃ a ∈ seeds, ReflTransGen (Refers next) a b := by
  have hseeds : ∀ x, x ∈ seeds.eraseDups ↔ x ∈ seeds := fun _ ↦ List.mem_eraseDups
  constructor
  · apply forall_mem_spread (P := fun x ↦ ∃ a ∈ seeds, ReflTransGen (Refers next) a x)
    · rintro a b ⟨s, hs, hsa⟩ hab
      exact ⟨s, hs, hsa.tail hab⟩
    · exact fun x hx ↦ ⟨x, (hseeds x).mp hx, .refl⟩
    · exact fun x hx ↦ ⟨x, (hseeds x).mp hx, .refl⟩
  · rintro ⟨a, ha, hab⟩
    induction hab with
    | refl => exact subset_spread _ _ _ ((hseeds a).mpr ha)
    | tail _ hcd ih =>
      have hunmet : unmet referrers [] ≤ rounds := Nat.le_trans (unmet_nil_le referrers) hrounds
      exact spread_closed href rounds [] seeds.eraseDups hunmet (by simp) ih hcd

/-- Names can be ranked so that one that does not lead to itself ranks above those it refers to: by
how many of the names it leads to. -/
theorem exists_rank (next : String → List String) (names : List String) :
    ∃ rank : String → Nat, (∀ a, rank a ≤ names.length) ∧ (∀ a ∈ names, 0 < rank a) ∧
      ∀ a ∈ names, ¬ TransGen (Refers next) a a → ∀ b, Refers next a b → rank b < rank a := by
  classical
  let below (a : String) : Finset String := names.toFinset.filter (ReflTransGen (Refers next) a)
  have hmem : ∀ a x, x ∈ below a ↔ x ∈ names ∧ ReflTransGen (Refers next) a x := by
    intro a x
    simp [below]
  refine ⟨fun a ↦ (below a).card, fun a ↦ ?_, fun a ha ↦ ?_, fun a ha hcycle b hab ↦ ?_⟩
  · exact Nat.le_trans (Finset.card_filter_le _ _) (List.toFinset_card_le names)
  · exact Finset.card_pos.mpr ⟨a, (hmem a a).mpr ⟨ha, .refl⟩⟩
  · apply Finset.card_lt_card
    rw [Finset.ssubset_iff_of_subset]
    · refine ⟨a, (hmem a a).mpr ⟨ha, .refl⟩, fun h ↦ ?_⟩
      exact hcycle (.head' hab ((hmem b a).mp h).2)
    · intro x hx
      have hx := (hmem b x).mp hx
      exact (hmem a x).mpr ⟨hx.1, .head hab hx.2⟩

/-- From where all chains of a relation end, nothing is reached that leads to itself. -/
theorem not_transGen_of_acc {α : Type} {R : α → α → Prop} {a b : α}
    (h : Acc (fun y x ↦ R x y) a) (hab : ReflTransGen R a b) : ¬ TransGen R b b := by
  induction h generalizing b with
  | intro a _ ih =>
    intro hbb
    cases ReflTransGen.cases_head hab with
    | inl he =>
      subst he
      obtain ⟨c, hac, hca⟩ := TransGen.head'_iff.mp hbb
      exact ih c hac .refl (.tail' hca hac)
    | inr hc =>
      obtain ⟨c, hac, hcb⟩ := hc
      exact ih c hac hcb hbb

/-- Putting names in order keeps which they are. -/
theorem mem_sortedNames {names : List String} {a : String} : a ∈ sortedNames names ↔ a ∈ names := by
  rw [sortedNames, List.mem_mergeSort, List.mem_eraseDups]

private theorem nodup_eraseDups (names : List String) : names.eraseDups.Nodup := by
  induction hn : names.length using Nat.strongRecOn generalizing names with
  | ind n ih =>
    cases names with
    | nil => simp
    | cons a names =>
      rw [List.eraseDups_cons, List.nodup_cons]
      constructor
      · rw [List.mem_eraseDups, List.mem_filter]
        simp
      · refine ih _ ?_ _ rfl
        have := List.length_filter_le (fun b ↦ !b == a) names
        rw [← hn, List.length_cons]
        omega

/-- Names in order are there once. -/
theorem nodup_sortedNames {names : List String} : (sortedNames names).Nodup := by
  rw [sortedNames]
  exact (List.mergeSort_perm _ _).nodup_iff.mpr (nodup_eraseDups names)

/-- Names in order increase. -/
theorem pairwise_sortedNames {names : List String} : (sortedNames names).Pairwise (· < ·) := by
  have hle : (sortedNames names).Pairwise (· ≤ ·) := by
    have htrans : ∀ a b c : String, decide (a ≤ b) = true → decide (b ≤ c) = true →
        decide (a ≤ c) = true := by
      simpa only [decide_eq_true_eq] using fun _ _ _ ↦ String.le_trans
    have htotal : ∀ a b : String, (decide (a ≤ b) || decide (b ≤ a)) = true := by
      simpa using String.le_total
    simpa [sortedNames] using List.pairwise_mergeSort htrans htotal names.eraseDups
  refine hle.imp₂ (fun a b hab hne ↦ ?_) nodup_sortedNames
  exact String.not_le.mp fun hba ↦ hne (String.le_antisymm hab hba)

/-- Which names there are decides what they are in order. -/
theorem sortedNames_congr {names others : List String} (h : ∀ a, a ∈ names ↔ a ∈ others) :
    sortedNames names = sortedNames others := by
  have hperm : (sortedNames names).Perm (sortedNames others) :=
    (List.perm_ext_iff_of_nodup nodup_sortedNames nodup_sortedNames).mpr fun a ↦ by
      rw [mem_sortedNames, mem_sortedNames, h]
  exact hperm.eq_of_pairwise (fun a b _ _ hab hba ↦ absurd hba (String.lt_asymm hab))
    pairwise_sortedNames pairwise_sortedNames

end FilterPipeline
