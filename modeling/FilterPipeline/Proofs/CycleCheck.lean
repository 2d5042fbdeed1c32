import FilterPipeline.Catalog.Basic
import FilterPipeline.Proofs.Reachability

/-!
# The check for cycles

A catalog is refused when an arithmetic variable depends on itself. The search for a chain of
dependencies that leads a name back to itself keeps a stack of the names still to be looked at and a
set of those met, and stops as soon as it finds the name. Main statement: the search always ends,
with whether there is such a chain, and a catalog whose variables are sound otherwise is refused for
the first of its variables that lies on a cycle.
-/

namespace FilterPipeline

open Relation

/-- What a search for a name has still to look at, the next one first, and what it has met. -/
structure CycleSearch where
  pending : List String
  met : List String

namespace CycleSearch

/-- Meets a name; a new one is looked at next. -/
def meet (s : CycleSearch) (a : String) : CycleSearch :=
  if a ∈ s.met then s else ⟨a :: s.pending, a :: s.met⟩

/-- Looks at the next name: the search ends, with whether the root has been found, or it goes on
with all that the name refers to. -/
def step (next : String → List String) (root : String) (s : CycleSearch) : Bool ⊕ CycleSearch :=
  match s.pending with
  | [] => .inl false
  | a :: rest =>
    if root ∈ next a then .inl true else .inr ((next a).foldl meet ⟨rest, s.met⟩)

/-- What a search ends with, if so many steps are enough. -/
def run (next : String → List String) (root : String) : (steps : Nat) → CycleSearch → Option Bool
  | 0, _ => none
  | steps + 1, s =>
    match s.step next root with
    | .inl found => some found
    | .inr s' => run next root steps s'

/-- The search for a way back to a name. -/
def start (root : String) : CycleSearch := ⟨[root], []⟩

/-! ### Meeting names -/

section Meet

variable {s : CycleSearch} {a x : String} {names : List String}

private theorem mem_met_meet : x ∈ (s.meet a).met ↔ x ∈ s.met ∨ x = a := by
  unfold meet
  split
  · next h => exact ⟨.inl, fun hx ↦ hx.elim id fun hx ↦ hx ▸ h⟩
  · rw [List.mem_cons, or_comm]

private theorem mem_pending_meet : x ∈ (s.meet a).pending ↔ x ∈ s.pending ∨ x = a ∧ a ∉ s.met := by
  unfold meet
  split
  · next h => simp [h]
  · next h => simp [h, or_comm]

private theorem mem_met_foldl : x ∈ (names.foldl meet s).met ↔ x ∈ s.met ∨ x ∈ names := by
  induction names generalizing s with
  | nil => simp
  | cons a names ih => rw [List.foldl_cons, ih, mem_met_meet, List.mem_cons, or_assoc]

private theorem mem_pending_foldl :
    x ∈ (names.foldl meet s).pending ↔ x ∈ s.pending ∨ x ∈ names ∧ x ∉ s.met := by
  induction names generalizing s with
  | nil => simp
  | cons a names ih =>
    rw [List.foldl_cons, ih, mem_pending_meet, mem_met_meet, List.mem_cons]
    by_cases hx : x = a
    · subst hx
      tauto
    · tauto

end Meet

/-! ### Termination -/

/-- How many of the known names a search has not met, and how many it has still to look at. -/
def left (known : List String) (s : CycleSearch) : Nat := unmet known s.met + s.pending.length

variable {next : String → List String} {root : String} {s s' : CycleSearch} {known : List String}

private theorem left_meet_le {a : String} (ha : a ∈ known) :
    (s.meet a).left known ≤ s.left known := by
  unfold meet
  split
  · exact le_rfl
  · next h =>
    have hlt : unmet known (a :: s.met) < unmet known s.met :=
      unmet_lt ha h List.mem_cons_self (List.subset_cons_self a s.met)
    simp only [left, List.length_cons]
    omega

private theorem left_foldl_le {names : List String} (hnames : names ⊆ known) :
    (names.foldl meet s).left known ≤ s.left known := by
  induction names generalizing s with
  | nil => exact le_rfl
  | cons a names ih =>
    obtain ⟨ha, hrest⟩ := List.cons_subset.mp hnames
    exact Nat.le_trans (ih hrest) (left_meet_le ha)

/-- A search that goes on has looked at one name, and all that it refers to is met. -/
theorem step_eq_inr (h : s.step next root = .inr s') : ∃ a rest, s.pending = a :: rest ∧
    root ∉ next a ∧ s' = (next a).foldl meet ⟨rest, s.met⟩ := by
  unfold step at h
  split at h
  · cases h
  · next a rest hpending =>
    split at h
    · cases h
    · next hroot =>
      cases h
      exact ⟨a, rest, hpending, hroot, rfl⟩

private theorem left_step_lt (hnext : ∀ a, next a ⊆ known) (h : s.step next root = .inr s') :
    s'.left known < s.left known := by
  obtain ⟨a, rest, hpending, -, rfl⟩ := step_eq_inr h
  have hle : ((next a).foldl meet ⟨rest, s.met⟩).left known ≤ left known ⟨rest, s.met⟩ :=
    left_foldl_le (hnext a)
  have hpop : left known ⟨rest, s.met⟩ < s.left known := by
    simp only [left, hpending, List.length_cons]
    omega
  omega

private theorem isSome_run (hnext : ∀ a, next a ⊆ known) {steps : Nat}
    (hsteps : s.left known < steps) :
    (run next root steps s).isSome = true := by
  induction steps generalizing s with
  | zero => omega
  | succ steps ih =>
    rw [run]
    split
    · rfl
    · next s' h =>
      apply ih
      have hlt := left_step_lt hnext h
      omega

/-! ### The verdict -/

/-- What a search keeps to: the root leads to all that it has still to look at, and whatever it has
met and looked at refers only to names that it has met, and not to the root. -/
structure IsSound (next : String → List String) (root : String) (s : CycleSearch) : Prop where
  reached : ∀ a ∈ s.pending, ReflTransGen (Refers next) root a
  settled : ∀ a, a = root ∨ a ∈ s.met →
    a ∈ s.pending ∨ ∀ b, Refers next a b → b ≠ root ∧ b ∈ s.met

private theorem isSound_start : (start root).IsSound next root where
  reached a ha := by rw [List.mem_singleton.mp ha]
  settled a ha := by
    rcases ha with rfl | ha
    · exact .inl List.mem_cons_self
    · cases ha

private theorem IsSound.step (hs : s.IsSound next root) (h : s.step next root = .inr s') :
    s'.IsSound next root := by
  obtain ⟨a, rest, hpending, hroot, rfl⟩ := step_eq_inr h
  have ha : ReflTransGen (Refers next) root a := hs.reached a (hpending ▸ List.mem_cons_self)
  constructor
  · intro x hx
    rcases mem_pending_foldl.mp hx with hx | ⟨hx, -⟩
    · exact hs.reached x (hpending ▸ List.mem_cons_of_mem a hx)
    · exact ha.tail hx
  · intro x hx
    by_cases hold : x = root ∨ x ∈ s.met
    · rcases hs.settled x hold with hx | hx
      · rw [hpending] at hx
        rcases List.mem_cons.mp hx with rfl | hx
        · -- this is the name that the step has looked at
          refine .inr fun b hb ↦ ⟨?_, mem_met_foldl.mpr (.inr hb)⟩
          rintro rfl
          exact hroot hb
        · exact .inl (mem_pending_foldl.mpr (.inl hx))
      · exact .inr fun b hb ↦ ⟨(hx b hb).1, mem_met_foldl.mpr (.inl (hx b hb).2)⟩
    · have hnew : x ∈ next a := by
        rcases hx with hx | hx
        · exact absurd (.inl hx) hold
        · exact (mem_met_foldl.mp hx).resolve_left fun hx ↦ hold (.inr hx)
      exact .inl (mem_pending_foldl.mpr (.inr ⟨hnew, fun hx ↦ hold (.inr hx)⟩))

private theorem IsSound.step_eq_inl {found : Bool} (hs : s.IsSound next root)
    (h : s.step next root = .inl found) :
    found = true ↔ TransGen (Refers next) root root := by
  unfold CycleSearch.step at h
  split at h
  · next hpending =>
    cases h
    simp only [Bool.false_eq_true, false_iff]
    have hsettled : ∀ a, a = root ∨ a ∈ s.met → ∀ b, Refers next a b → b ≠ root ∧ b ∈ s.met := by
      intro a ha
      exact (hs.settled a ha).resolve_left (by rw [hpending]; exact List.not_mem_nil)
    have hclosed : ∀ a, ReflTransGen (Refers next) root a → a = root ∨ a ∈ s.met := by
      intro a ha
      induction ha with
      | refl => exact .inl rfl
      | tail _ hab ih => exact .inr (hsettled _ ih _ hab).2
    intro hloop
    obtain ⟨a, ha, hback⟩ := TransGen.tail'_iff.mp hloop
    exact (hsettled a (hclosed a ha) root hback).1 rfl
  · next a rest hpending =>
    split at h
    · next hback =>
      cases h
      simp only [true_iff]
      exact .tail' (hs.reached a (hpending ▸ List.mem_cons_self)) hback
    · cases h

private theorem IsSound.run {found : Bool} {steps : Nat} (hs : s.IsSound next root)
    (h : run next root steps s = some found) :
    found = true ↔ TransGen (Refers next) root root := by
  induction steps generalizing s with
  | zero => cases h
  | succ steps ih =>
    rw [CycleSearch.run] at h
    split at h
    · next hstep =>
      cases h
      exact hs.step_eq_inl hstep
    · next hstep => exact ih (hs.step hstep) h

end CycleSearch

namespace Catalog

variable {c : Catalog} {name : String}

private theorem mem_keys_of_refers {a b : String} (h : Refers c.dependencies a b) :
    a ∈ c.arithmetic.map ArithmeticVariable.key := by
  rw [Refers, dependencies] at h
  cases hv : c.arithmetic? a with
  | none => simp [hv] at h
  | some v => exact mem_keys_of_arithmetic? hv

/-- A name is found to be cyclic when its dependencies lead back to it. -/
theorem isCyclic_iff : c.isCyclic name = true ↔ TransGen (Refers c.dependencies) name name := by
  rw [isCyclic, List.contains_iff_mem, mem_reachable_iff _ (fun _ _ h ↦ mem_keys_of_refers h)
    (by rw [List.length_map]), TransGen.head'_iff]
  rfl

/-- The search that starts at a name ends with whether the name is cyclic. -/
theorem exists_run_eq (c : Catalog) (root : String) : ∃ enough, ∀ steps, enough ≤ steps →
    CycleSearch.run c.dependencies root steps (.start root) = some (c.isCyclic root) := by
  let known := c.arithmetic.flatMap ArithmeticVariable.dependencies
  have hnext : ∀ a, c.dependencies a ⊆ known := by
    intro a b hb
    rw [dependencies] at hb
    cases hv : c.arithmetic? a with
    | none => simp [hv] at hb
    | some v => exact List.mem_flatMap.mpr ⟨v, mem_of_arithmetic? hv, by simpa [hv] using hb⟩
  refine ⟨(CycleSearch.start root).left known + 1, fun steps hsteps ↦ ?_⟩
  have hends : (CycleSearch.run c.dependencies root steps (.start root)).isSome = true :=
    CycleSearch.isSome_run hnext (Nat.lt_of_succ_le hsteps)
  obtain ⟨found, hfound⟩ := Option.isSome_iff_exists.mp hends
  rw [hfound, Option.some_inj, Bool.eq_iff_iff, isCyclic_iff]
  exact CycleSearch.isSound_start.run hfound

/-- An arithmetic variable is found under the first name, and another, or the same, under the
second, which is among the names that the formula of the first depends on. -/
def DependsOn (c : Catalog) (a b : String) : Prop :=
  ∃ v text w, c.arithmetic? a = some v ∧ v.formula? = some text ∧
    b ∈ Formula.dependencies text ∧ c.arithmetic? b = some w

/-- A dependency on an arithmetic variable is a dependency that is one. -/
theorem dependsOn_iff {a b : String} :
    c.DependsOn a b ↔ Refers c.dependencies a b ∧ ∃ w, c.arithmetic? b = some w := by
  rw [Refers, dependencies]
  constructor
  · rintro ⟨v, text, w, hv, htext, hb, hw⟩
    exact ⟨by simpa [hv, ArithmeticVariable.dependencies, htext] using hb, w, hw⟩
  · rintro ⟨hb, w, hw⟩
    cases hv : c.arithmetic? a with
    | none => simp [hv] at hb
    | some v =>
      cases htext : v.formula? with
      | none => simp [hv, ArithmeticVariable.dependencies, htext] at hb
      | some text =>
        exact ⟨v, text, w, hv, htext,
          by simpa [hv, ArithmeticVariable.dependencies, htext] using hb, hw⟩

/-- All names on a cycle of dependencies are arithmetic variables. -/
theorem transGen_dependsOn_iff :
    TransGen c.DependsOn name name ↔ TransGen (Refers c.dependencies) name name := by
  have hfound : ∀ {a b}, TransGen (Refers c.dependencies) a b → ∃ w, c.arithmetic? a = some w := by
    intro a b hab
    obtain ⟨b, hab, -⟩ := TransGen.head'_iff.mp hab
    rw [Refers, dependencies] at hab
    cases hv : c.arithmetic? a with
    | none => simp [hv] at hab
    | some v => exact ⟨v, rfl⟩
  constructor
  · exact fun h ↦ TransGen.mono (fun a b hab ↦ (dependsOn_iff.mp hab).1) _ _ h
  · intro hloop
    have hlead : ∀ {a}, TransGen (Refers c.dependencies) a name → TransGen c.DependsOn a name := by
      intro a ha
      induction ha using TransGen.head_induction_on with
      | single h => exact .single (dependsOn_iff.mpr ⟨h, hfound hloop⟩)
      | head h hrest ih => exact .head (dependsOn_iff.mpr ⟨h, hfound hrest⟩) ih
    exact hlead hloop

/-- An arithmetic variable is found to be cyclic when it depends on itself. -/
theorem isCyclic_iff_dependsOn : c.isCyclic name = true ↔ TransGen c.DependsOn name name :=
  isCyclic_iff.trans transGen_dependsOn_iff.symm

private theorem forM_eq_error_iff {α : Type} {check : α → Except Fault Unit} {xs : List α}
    {fault : Fault} : xs.forM check = .error fault ↔ ∃ before x after,
      xs = before ++ x :: after ∧ check x = .error fault ∧ ∀ y ∈ before, check y = .ok () := by
  induction xs with
  | nil => simp [List.forM, pure, Except.pure]
  | cons x xs ih =>
    have hcons : (x :: xs).forM check = (check x).bind fun _ ↦ xs.forM check := rfl
    rw [hcons]
    cases hx : check x with
    | error fault' =>
      constructor
      · intro h
        cases h
        exact ⟨[], x, xs, rfl, hx, List.forall_mem_nil _⟩
      · rintro ⟨before, y, after, hsplit, hy, hbefore⟩
        cases before with
        | nil =>
          cases hsplit
          rw [← hy, hx]
          rfl
        | cons z before =>
          cases hsplit
          rw [hbefore _ List.mem_cons_self] at hx
          cases hx
    | ok u =>
      rw [Except.bind, ih]
      constructor
      · rintro ⟨before, y, after, rfl, hy, hbefore⟩
        exact ⟨x :: before, y, after, rfl, hy, List.forall_mem_cons.mpr ⟨hx, hbefore⟩⟩
      · rintro ⟨before, y, after, hsplit, hy, hbefore⟩
        cases before with
        | nil =>
          cases hsplit
          rw [hx] at hy
          cases hy
        | cons z before =>
          cases hsplit
          exact ⟨before, y, after, rfl, hy, (List.forall_mem_cons.mp hbefore).2⟩

private theorem validateArithmetic_eq {v : ArithmeticVariable} (h : v.formula?.isSome = true) :
    c.validateArithmetic v =
      if c.isCyclic v.name then .error (.cyclicVariable v.name) else .ok () := by
  obtain ⟨text, htext⟩ := Option.isSome_iff_exists.mp h
  rw [validateArithmetic, htext]
  rfl

/-- Among variables of which one depends on itself there is a first one that does. -/
theorem exists_first_cyclic {vs : List ArithmeticVariable}
    (h : ∃ v ∈ vs, TransGen c.DependsOn v.key v.key) :
    ∃ before v after, vs = before ++ v :: after ∧ TransGen c.DependsOn v.key v.key ∧
      ∀ w ∈ before, ¬ TransGen c.DependsOn w.key w.key := by
  obtain ⟨v, hv, hloop⟩ := h
  have hfound : (vs.find? fun v ↦ c.isCyclic v.key).isSome = true :=
    List.find?_isSome.mpr ⟨v, hv, isCyclic_iff_dependsOn.mpr hloop⟩
  obtain ⟨w, hw⟩ := Option.isSome_iff_exists.mp hfound
  obtain ⟨hcyclic, before, after, hsplit, hbefore⟩ := List.find?_eq_some_iff_append.mp hw
  refine ⟨before, w, after, hsplit, isCyclic_iff_dependsOn.mp hcyclic, fun u hu hback ↦ ?_⟩
  simpa [isCyclic_iff_dependsOn.mpr hback] using hbefore u hu

section Sound

variable {s : Schema} (hlists : ∀ v ∈ c.lists, validateList s v = .ok ())
  (hnames : ∀ v ∈ c.arithmetic, v.key = v.name)
  (hformulas : ∀ v ∈ c.arithmetic, v.formula?.isSome = true)

include hnames hformulas

private theorem validateArithmetic_cases {v : ArithmeticVariable} (hv : v ∈ c.arithmetic) :
    (∀ name, c.validateArithmetic v = .error (.cyclicVariable name) ↔
      v.name = name ∧ TransGen c.DependsOn v.key v.key) ∧
    (c.validateArithmetic v = .ok () ↔ ¬ TransGen c.DependsOn v.key v.key) := by
  rw [validateArithmetic_eq (hformulas v hv), ← isCyclic_iff_dependsOn, hnames v hv]
  split <;> simp_all

include hlists

/-- Such a catalog is refused for the first variable that depends on itself. -/
theorem validate_eq_cyclicVariable_iff (name : String) :
    c.validate s = .error (.cyclicVariable name) ↔
      ∃ before v after, c.arithmetic = before ++ v :: after ∧ v.name = name ∧
        TransGen c.DependsOn v.key v.key ∧ ∀ w ∈ before, ¬ TransGen c.DependsOn w.key w.key := by
  rw [validate_eq_of_lists hlists, forM_eq_error_iff]
  refine exists_congr fun before ↦ exists_congr fun v ↦ exists_congr fun after ↦
    and_congr_right fun hsplit ↦ ?_
  have hmem : ∀ w ∈ before ++ v :: after, w ∈ c.arithmetic := fun w hw ↦ hsplit ▸ hw
  rw [← and_assoc, (validateArithmetic_cases hnames hformulas (hmem v (by simp))).1]
  refine and_congr_right fun _ ↦ forall₂_congr fun w hw ↦ ?_
  exact (validateArithmetic_cases hnames hformulas (hmem w (List.mem_append_left _ hw))).2

end Sound

/-- Every search for a cycle ends. A catalog with sound list variables, where each arithmetic
variable has a formula and no blanks around its name, is refused as cyclic exactly when one of them
depends on itself, and then for the first one that does. -/
theorem validate_cyclic_iff {s : Schema} (hlists : ∀ v ∈ c.lists, validateList s v = .ok ())
    (hnames : ∀ v ∈ c.arithmetic, v.key = v.name)
    (hformulas : ∀ v ∈ c.arithmetic, v.formula?.isSome = true) :
    (∀ root, ∃ enough, ∀ steps, enough ≤ steps →
      CycleSearch.run c.dependencies root steps (.start root) = some (c.isCyclic root)) ∧
    ((∃ name, c.validate s = .error (.cyclicVariable name)) ↔
      ∃ v ∈ c.arithmetic, TransGen c.DependsOn v.key v.key) ∧
    ∀ name, c.validate s = .error (.cyclicVariable name) ↔
      ∃ before v after, c.arithmetic = before ++ v :: after ∧ v.name = name ∧
        TransGen c.DependsOn v.key v.key ∧ ∀ w ∈ before, ¬ TransGen c.DependsOn w.key w.key := by
  have hfirst := validate_eq_cyclicVariable_iff hlists hnames hformulas
  refine ⟨exists_run_eq c, ⟨?_, fun hcyclic ↦ ?_⟩, hfirst⟩
  · rintro ⟨name, hname⟩
    obtain ⟨before, v, after, hsplit, -, hloop, -⟩ := (hfirst name).mp hname
    exact ⟨v, by rw [hsplit]; simp, hloop⟩
  · obtain ⟨before, v, after, hsplit, hloop, hbefore⟩ := exists_first_cyclic hcyclic
    exact ⟨v.name, (hfirst v.name).mpr ⟨before, v, after, hsplit, rfl, hloop, hbefore⟩⟩

/-- Variables of which the first leads to a cycle of the next two and is not on it. -/
def knotted : Catalog where
  arithmetic := [⟨"rest", "rest = total - mag"⟩, ⟨"total", "total = 2 * (part + rest_2)"⟩,
    ⟨"part", "part = sqrt(total)"⟩, ⟨"own", "own = own"⟩]
  lists := [⟨"low", ⟨"prv", some (.list (.aggregate .min)), some "jd", .literal .null, none, none,
    none⟩⟩]

/-- The catalog is refused for the second variable. -/
theorem knotted_validate : knotted.validate .empty = .error (.cyclicVariable "total") := by
  have hlists : ∀ v ∈ knotted.lists, validateList .empty v = .ok () := by
    intro v hv
    rw [List.mem_singleton.mp hv]
    rfl
  have hloop : TransGen knotted.DependsOn "total" "total" :=
    isCyclic_iff_dependsOn.mp (by decide +kernel)
  have hlead : ¬ TransGen knotted.DependsOn "rest" "rest" :=
    mt isCyclic_iff_dependsOn.mpr (by decide +kernel)
  apply ((validate_cyclic_iff hlists (by decide +kernel) (by decide +kernel)).2.2 "total").mpr
  refine ⟨knotted.arithmetic.take 1, _, knotted.arithmetic.drop 2, rfl, rfl, hloop, ?_⟩
  intro w hw
  rw [List.mem_singleton.mp hw]
  exact hlead

end Catalog
end FilterPipeline
