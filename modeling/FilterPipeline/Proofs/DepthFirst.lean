import FilterPipeline.Proofs.Reachability

/-!
# Depth-first walks

A walk takes names one after the other. A name that has been met before is passed over; a new one
is met, and then the names that it refers to are walked before the next one is taken. Main
statement: where finitely many names refer to others, a walk ends, and a walk that begins with
nothing met has met exactly the names that chains of references lead to. In what order a name refers
to others makes no difference to which names are met.
-/

namespace FilterPipeline

open Relation

/-- A walk over some names, from the names met before to those met after it. -/
inductive Walks (next : String → List String) : (met names after : List String) → Prop
  | done {met : List String} : Walks next met [] met
  | pass {met names after : List String} {a : String} (hmet : a ∈ met)
      (rest : Walks next met names after) : Walks next met (a :: names) after
  | enter {met names between after : List String} {a : String} (hnew : a ∉ met)
      (below : Walks next (a :: met) (next a) between) (rest : Walks next between names after) :
      Walks next met (a :: names) after

namespace Walks

variable {next : String → List String} {met names after : List String}

/-- What has been met stays met. -/
theorem met_subset (h : Walks next met names after) : met ⊆ after := by
  induction h with
  | done => exact List.Subset.refl _
  | pass _ _ ih => exact ih
  | enter _ _ _ below rest => exact fun x hx ↦ rest (below (List.mem_cons_of_mem _ hx))

/-- The names walked over have been met. -/
theorem names_subset (h : Walks next met names after) : names ⊆ after := by
  induction h with
  | done => exact List.nil_subset _
  | pass hmet rest ih => exact List.cons_subset.mpr ⟨rest.met_subset hmet, ih⟩
  | enter _ below rest _ ih =>
    exact List.cons_subset.mpr ⟨rest.met_subset (below.met_subset List.mem_cons_self), ih⟩

/-- What a newly met name refers to has been met. A name met before may still be waiting for what it
refers to: only a walk that began with it has walked over that. -/
theorem closed (h : Walks next met names after) {a b : String} (ha : a ∈ after) (hnew : a ∉ met)
    (hab : Refers next a b) : b ∈ after := by
  induction h with
  | done => exact absurd ha hnew
  | pass _ _ ih => exact ih ha hnew
  | @enter met _ between _ c _ below rest ihbelow ihrest =>
    by_cases hbetween : a ∈ between
    · apply rest.met_subset
      by_cases hac : a = c
      · subst hac
        exact below.names_subset hab
      · exact ihbelow hbetween (by simp [hac, hnew])
    · exact ihrest ha hbetween

private theorem forall_mem {P : String → Prop} (hnext : ∀ a b, P a → Refers next a b → P b)
    (h : Walks next met names after) (hmet : ∀ x ∈ met, P x) (hnames : ∀ x ∈ names, P x) :
    ∀ x ∈ after, P x := by
  induction h with
  | done => exact hmet
  | pass _ _ ih => exact ih hmet (List.forall_mem_cons.mp hnames).2
  | @enter _ _ _ _ a _ _ _ ihbelow ihrest =>
    obtain ⟨ha, hrest⟩ := List.forall_mem_cons.mp hnames
    exact ihrest (ihbelow (List.forall_mem_cons.mpr ⟨ha, hmet⟩) fun b hb ↦ hnext a b ha hb) hrest

/-- A walk that begins with nothing met has met what a chain of references leads to. -/
theorem mem_iff (h : Walks next [] names after) {b : String} :
    b ∈ after ↔ ∃ a ∈ names, ReflTransGen (Refers next) a b := by
  constructor
  · apply h.forall_mem (P := fun b ↦ ∃ a ∈ names, ReflTransGen (Refers next) a b)
    · rintro b c ⟨a, ha, hab⟩ hbc
      exact ⟨a, ha, hab.tail hbc⟩
    · exact List.forall_mem_nil _
    · exact fun a ha ↦ ⟨a, ha, .refl⟩
  · rintro ⟨a, ha, hab⟩
    induction hab with
    | refl => exact h.names_subset ha
    | tail _ hbc ih => exact h.closed ih List.not_mem_nil hbc

end Walks

variable {next : String → List String}

/-- Where only some names refer to others, every walk ends: entering one of these leaves fewer of
them to be met, and what is left to be taken gets less. -/
theorem exists_walks {referrers : List String} (href : ∀ a b, Refers next a b → a ∈ referrers)
    (met names : List String) : ∃ after, Walks next met names after := by
  induction hn : unmet referrers met using Nat.strongRecOn generalizing met names with
  | ind n ih =>
    subst hn
    induction names generalizing met with
    | nil => exact ⟨met, .done⟩
    | cons a names ihnames =>
      by_cases ha : a ∈ met
      · obtain ⟨after, rest⟩ := ihnames met ih
        exact ⟨after, .pass ha rest⟩
      · obtain ⟨between, below⟩ : ∃ between, Walks next (a :: met) (next a) between := by
          cases hnext : next a with
          | nil => exact ⟨a :: met, .done⟩
          | cons b bs =>
            have hmem : a ∈ referrers := href a b (by rw [Refers, hnext]; exact List.mem_cons_self)
            have hlt : unmet referrers (a :: met) < unmet referrers met :=
              unmet_lt hmem ha List.mem_cons_self (List.subset_cons_self a met)
            exact ih _ hlt (a :: met) (b :: bs) rfl
        have hle : unmet referrers between ≤ unmet referrers met :=
          unmet_le fun x hx ↦ below.met_subset (List.mem_cons_of_mem a hx)
        obtain ⟨after, rest⟩ := ihnames between fun m hm ↦ ih m (Nat.lt_of_lt_of_le hm hle)
        exact ⟨after, .enter ha below rest⟩

end FilterPipeline
