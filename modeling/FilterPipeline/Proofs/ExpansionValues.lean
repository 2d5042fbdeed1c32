import FilterPipeline.Proofs.MarkedFormulas
import FilterPipeline.Proofs.ThreadedExpansion

/-!
# What expanded formulas mean

Numbers, operators, functions and negation are interpreted in any type, and paths and list variables
have any values there. Where no variable leads back to itself, each variable then has one value,
that of its formula. Main statement: the expansion of a variable has that value, whether or not
formulas are kept, and so has what a run with one stack and one store gives.
-/

namespace FilterPipeline

open Relation

/-- What the parts of formulas mean in a type. -/
structure Interpretation (α : Type*) where
  number : Double → α
  binary : BinaryOp → α → α → α
  call : MathFunction → α → α
  negate : α → α

variable {α : Type*}

/-- The value of a formula whose leaves have values. -/
def Formula.value (I : Interpretation α) (leaf : String → α) : Formula → α
  | number x => I.number x
  | field path => leaf path
  | binary op left right => I.binary op (left.value I leaf) (right.value I leaf)
  | call f arg => I.call f (arg.value I leaf)
  | negate arg => I.negate (arg.value I leaf)

namespace Resolver

/-- Each arithmetic variable with a formula has the value of the formula, and every other name its
own. -/
structure IsAssignment (r : Resolver) (read : String → Formula) (I : Interpretation α)
    (leaf : String → α) (value : String → α) : Prop where
  formula : ∀ {name v text}, r.classify name = .arithmetic v → v.formula? = some text →
    value name = (read text).value I value
  leaf : ∀ {name}, ¬ r.IsInlinable name → value name = leaf name

namespace IsExpansion

variable {r : Resolver} {read : String → Formula} {within : List String} {m : MarkedFormula}
  {I : Interpretation α} {leaf : String → α}

private theorem not_isInlinable (h : r.IsExpansion read within m)
    (hacyclic : ∀ a, ¬ TransGen (r.Mentions read) a a)
    (hwithin : ∀ a ∈ within, ∀ b ∈ m.written.fields, r.IsInlinable b →
      TransGen (r.Mentions read) a b) :
    ∀ b ∈ m.unmarked.fields, ¬ r.IsInlinable b := by
  induction m generalizing within with
  | number x => exact List.forall_mem_nil _
  | field path =>
    refine List.forall_mem_singleton.mpr fun hpath ↦ hacyclic path ?_
    exact hwithin path (h hpath) path (List.mem_singleton_self path) hpath
  | binary op left right ihl ihr =>
    refine List.forall_mem_append.mpr ⟨ihl h.1 fun a ha b hb ↦ ?_, ihr h.2 fun a ha b hb ↦ ?_⟩
    · exact hwithin a ha b (List.mem_append_left _ hb)
    · exact hwithin a ha b (List.mem_append_right _ hb)
  | call f arg ih | negate arg ih => exact ih h hwithin
  | inlined name body ih =>
    obtain ⟨-, ⟨v, text, hv, htext, hbody⟩, hexpand⟩ := h
    have hname := fun a ha ↦ hwithin a ha name (List.mem_singleton_self name) ⟨v, text, hv, htext⟩
    refine ih hexpand fun a ha b hb hinlinable ↦ ?_
    have hstep : r.Mentions read name b := by
      obtain ⟨w, _, hw, _⟩ := hinlinable
      exact ⟨v, text, arithmetic?_of_classify hv, htext, hbody ▸ hb, w, hw⟩
    rcases List.mem_cons.mp ha with rfl | ha
    · exact .single hstep
    · exact (hname a ha).tail hstep

private theorem mono (h : r.IsExpansion read within m)
    (hleaves : ∀ b ∈ m.unmarked.fields, ¬ r.IsInlinable b) {fewer : List String}
    (hsub : fewer ⊆ within) : r.IsExpansion read fewer m := by
  induction m generalizing within fewer with
  | number x => trivial
  | field path => exact fun hpath ↦ absurd hpath (hleaves path (List.mem_singleton_self path))
  | binary op left right ihl ihr =>
    obtain ⟨hleft, hright⟩ := List.forall_mem_append.mp hleaves
    exact ⟨ihl h.1 hleft hsub, ihr h.2 hright hsub⟩
  | call f arg ih | negate arg ih => exact ih h hleaves hsub
  | inlined name body ih =>
    obtain ⟨hnew, hformula, hexpand⟩ := h
    exact ⟨fun hold ↦ hnew (hsub hold), hformula,
      ih hexpand hleaves (List.cons_subset_cons name hsub)⟩

/-- Where no variable is left, a formula has after inlining the value that it had before, if names
of variables have the values of what is inlined for them. -/
theorem value_unmarked (h : r.IsExpansion read within m)
    (hleaves : ∀ b ∈ m.unmarked.fields, ¬ r.IsInlinable b) {value : String → α}
    (hleaf : ∀ {name}, ¬ r.IsInlinable name → value name = leaf name)
    (hinlined : ∀ {within name body}, r.IsExpansion read within (.inlined name body) →
      (∀ b ∈ body.unmarked.fields, ¬ r.IsInlinable b) →
      body.unmarked.value I leaf = body.written.value I value →
      body.unmarked.value I leaf = value name) :
    m.unmarked.value I leaf = m.written.value I value := by
  induction m generalizing within with
  | number x => rfl
  | field path => exact (hleaf (hleaves path (List.mem_singleton_self path))).symm
  | binary op left right ihl ihr =>
    obtain ⟨hleft, hright⟩ := List.forall_mem_append.mp hleaves
    exact congrArg₂ (I.binary op) (ihl h.1 hleft) (ihr h.2 hright)
  | call f arg ih => exact congrArg (I.call f) (ih h hleaves)
  | negate arg ih => exact congrArg I.negate (ih h hleaves)
  | inlined name body ih =>
    have hname : body.unmarked.value I leaf = value name :=
      hinlined h hleaves (ih h.2.2 hleaves)
    exact hname

end IsExpansion

section Acyclic

variable {r : Resolver} {read : String → Formula}
  (hacyclic : ∀ a, ¬ TransGen (r.Mentions read) a a)

include hacyclic

/-- A variable with a formula is expanded, and no variable with a formula is left. -/
theorem exists_isExpansion_of_acyclic {name : String} {v : ArithmeticVariable} {text : String}
    (hv : r.catalog.arithmetic? name = some v) (htext : v.formula? = some text) :
    ∃ m : MarkedFormula, m.written = read text ∧ r.IsExpansion read [name] m ∧
      (∀ b ∈ m.unmarked.fields, ¬ r.IsInlinable b) ∧ r.expand? read name = some m.unmarked := by
  obtain ⟨m, hwritten, hexpand, hm⟩ :=
    exists_expandWithin_isExpansion card_arithmeticNames_le read hv htext
  refine ⟨m, hwritten, hexpand, hexpand.not_isInlinable hacyclic ?_, hm⟩
  rintro a ha b hb ⟨w, -, hw, -⟩
  rw [List.mem_singleton.mp ha]
  exact .single ⟨v, text, hv, htext, hwritten ▸ hb, w, hw⟩

variable (I : Interpretation α) (leaf : String → α)

/-- There is a value for each name. -/
theorem exists_isAssignment : ∃ value, r.IsAssignment read I leaf value := by
  classical
  let value name := if r.IsInlinable name then
    ((r.expand? read name).map (·.value I leaf)).getD (leaf name) else leaf name
  have hleaf : ∀ {name}, ¬ r.IsInlinable name → value name = leaf name := fun h ↦ if_neg h
  have hvalue : ∀ {name v text} {m : MarkedFormula}, r.classify name = .arithmetic v →
      v.formula? = some text → m.written = read text → r.IsExpansion read [name] m →
      (∀ b ∈ m.unmarked.fields, ¬ r.IsInlinable b) → value name = m.unmarked.value I leaf := by
    intro name v text m hv htext hwritten hexpand hleaves
    obtain ⟨m', hwritten', hexpand', -, hm'⟩ :=
      exists_isExpansion_of_acyclic hacyclic (arithmetic?_of_classify hv) htext
    obtain rfl := hexpand'.unique hexpand (hwritten'.trans hwritten.symm)
    simp only [value, hm', Option.map_some, Option.getD_some]
    exact if_pos ⟨v, text, hv, htext⟩
  refine ⟨value, fun {name v text} hv htext ↦ ?_, hleaf⟩
  obtain ⟨m, hwritten, hexpand, hleaves, -⟩ :=
    exists_isExpansion_of_acyclic hacyclic (arithmetic?_of_classify hv) htext
  rw [hvalue hv htext hwritten hexpand hleaves, ← hwritten]
  apply hexpand.value_unmarked hleaves hleaf
  -- what is inlined on the way is the expansion of its variable on its own
  rintro within name body ⟨-, ⟨v, text, hv, htext, hbody⟩, hexpand⟩ hleaves -
  have hsub : [name] ⊆ name :: within := List.cons_subset_cons name (List.nil_subset within)
  exact (hvalue hv htext hbody (hexpand.mono hleaves hsub) hleaves).symm

/-- The expansion of a variable has the value of its formula. -/
theorem value_expand? {value : String → α} (h : r.IsAssignment read I leaf value) {name : String}
    {v : ArithmeticVariable} {text : String} (hv : r.catalog.arithmetic? name = some v)
    (htext : v.formula? = some text) : ∃ t, r.expand? read name = some t ∧
      t.value I leaf = (read text).value I value := by
  obtain ⟨m, hwritten, hexpand, hleaves, hm⟩ := exists_isExpansion_of_acyclic hacyclic hv htext
  refine ⟨m.unmarked, hm, hwritten ▸ hexpand.value_unmarked hleaves h.leaf ?_⟩
  rintro _ _ body ⟨-, ⟨v, text, hv, htext, hbody⟩, -⟩ - hvalue
  rw [hvalue, hbody, h.formula hv htext]

/-- There is one value for each name. -/
theorem IsAssignment.unique {value value' : String → α} (h : r.IsAssignment read I leaf value)
    (h' : r.IsAssignment read I leaf value') : value = value' := by
  funext name
  by_cases hname : r.IsInlinable name
  · obtain ⟨v, text, hv, htext⟩ := hname
    have hfound := arithmetic?_of_classify hv
    obtain ⟨t, ht, hvalue⟩ := value_expand? hacyclic I leaf h hfound htext
    obtain ⟨t', ht', hvalue'⟩ := value_expand? hacyclic I leaf h' hfound htext
    obtain rfl := Option.some.inj (ht.symm.trans ht')
    rw [h.formula hv htext, h'.formula hv htext, ← hvalue, hvalue']
  · rw [h.leaf hname, h'.leaf hname]

end Acyclic

/-- Where no variable leads back to itself, each name has one value, whatever numbers, operators,
functions and negation mean and whatever values paths and list variables have; and every variable
with a formula has an expansion, whose value is that of the formula. It is the same expansion
whether or not formulas are kept, whatever was read before, and it is what a run gives that hands
one stack and one store from leaf to leaf. Such a run leaves the stack empty, as it began. -/
theorem expand?_value {α : Type*} (r : Resolver) (s : Settings) (I : Interpretation α)
    (leaf : String → α) (hacyclic : ∀ a,
      ¬ TransGen (r.Mentions (Formula.parseWithin s.maxParseDepth)) a a) :
    ∃ value : String → α,
      r.IsAssignment (Formula.parseWithin s.maxParseDepth) I leaf value ∧
      (∀ value', r.IsAssignment (Formula.parseWithin s.maxParseDepth) I leaf value' →
        value' = value) ∧
      ∀ name v text, r.catalog.arithmetic? name = some v → v.formula? = some text →
        ∃ t : Formula,
          t.value I leaf = (Formula.parseWithin s.maxParseDepth text).value I value ∧
          ∀ (useCache : Bool) {ι : Type} [DecidableEq ι] (events : List (StoreEvent ι)),
            r.expand? ({ s with useParseCache := useCache }.readFormula
              (SharedStore.initial.run events).cache) name = some t ∧
            ∀ fuel, r.catalog.arithmeticNames.card ≤ fuel → ∃ kept : FormulaCache,
              ((r.expandThrough { s with useParseCache := useCache } fuel name).run
                ⟨[], (SharedStore.initial.run events).cache⟩).run = (some t, ⟨[], kept⟩) := by
  obtain ⟨value, hvalue⟩ := exists_isAssignment hacyclic I leaf
  refine ⟨value, hvalue, fun value' h ↦ h.unique hacyclic I leaf hvalue,
    fun name v text hv htext ↦ ?_⟩
  obtain ⟨t, ht, hmeans⟩ := value_expand? hacyclic I leaf hvalue hv htext
  refine ⟨t, hmeans, fun useCache ι _ events ↦ ?_⟩
  have hexact := (SharedStore.isExact_initial.run events).cache
  constructor
  · rw [Settings.readFormula_of_isExact _ hexact]
    exact ht
  · intro fuel hfuel
    obtain ⟨kept, -, hrun⟩ := Gives.expandThrough fuel name _ hexact
    rw [expandWithin_eq_of_card_le card_arithmeticNames_le hfuel] at hrun
    exact ⟨kept, hrun.trans (congrArg (·, _) ht)⟩

section Ranks

variable {r : Resolver} {read : String → Formula} (rank : String → Nat)
  (h : ∀ v ∈ r.catalog.arithmetic, ∀ text ∈ v.formula?, ∀ b ∈ (read text).fields,
    (r.catalog.arithmetic? b).isSome → rank b < rank v.key)

include h

private theorem rank_lt_of_mentions {a b : String} (hab : r.Mentions read a b) :
    rank b < rank a := by
  obtain ⟨v, text, hv, htext, hb, w, hw⟩ := hab
  rw [← Catalog.key_of_arithmetic? hv]
  exact h v (Catalog.mem_of_arithmetic? hv) text htext b hb
    (Option.isSome_iff_exists.mpr ⟨w, arithmetic?_of_classify hw⟩)

private theorem rank_lt_of_transGen {a b : String} (hab : TransGen (r.Mentions read) a b) :
    rank b < rank a := by
  induction hab with
  | single hab => exact rank_lt_of_mentions rank h hab
  | tail _ hbc ih => exact (rank_lt_of_mentions rank h hbc).trans ih

/-- So no variable leads back to itself. -/
theorem not_transGen_of_rank (a : String) : ¬ TransGen (r.Mentions read) a a :=
  fun haa ↦ Nat.lt_irrefl _ (rank_lt_of_transGen rank h haa)

end Ranks

/-- A variable that two others mention and one of them twice, and a list variable that hides one. -/
def braided : Resolver where
  schema := .empty
  catalog :=
    { arithmetic := [⟨"total", "total = half + mean * half"⟩, ⟨"mean", "mean = half - low"⟩,
        ⟨"half", "half = \\frac\x7bx\x7d\x7b2\x7d"⟩, ⟨"low", "low = y"⟩]
      lists := [⟨"low", ⟨"prv", some (.list (.aggregate .min)), some "jd", .literal .null,
        none, none, none⟩⟩] }

/-- The sum of what the leaves of a formula have for values, a number counting for nothing. -/
def leafSum : Interpretation Nat := ⟨fun _ ↦ 0, fun _ ↦ Nat.add, fun _ ↦ id, id⟩

/-- The path is counted three times, and the list variable instead of the formula that it hides. -/
theorem braided_expand?_value :
    (∀ a, ¬ TransGen (braided.Mentions (Formula.parseWithin Settings.default.maxParseDepth)) a a) ∧
    braided.catalog.arithmetic? "total" = some ⟨"total", "total = half + mean * half"⟩ ∧
    (⟨"total", "total = half + mean * half"⟩ : ArithmeticVariable).formula? =
      some "half + mean * half" ∧
    braided.catalog.arithmeticNames.card ≤ 4 ∧
    ∃ value : String → Nat, ∃ t : Formula,
      t.fields = ["x", "x", "low", "x"] ∧ t.value leafSum String.length = 6 ∧
      (Formula.parseWithin Settings.default.maxParseDepth "half + mean * half").value leafSum value
        = 6 ∧
      ∃ kept : FormulaCache,
        ((braided.expandThrough Settings.default 4 "total").run ⟨[], .empty⟩).run =
          (some t, ⟨[], kept⟩) := by
  have hacyclic : ∀ a,
      ¬ TransGen (braided.Mentions (Formula.parseWithin Settings.default.maxParseDepth)) a a :=
    not_transGen_of_rank (["low", "half", "mean", "total"].idxOf ·) (by decide +kernel)
  have hv : braided.catalog.arithmetic? "total" = some ⟨"total", "total = half + mean * half"⟩ := by
    rfl
  have htext : (⟨"total", "total = half + mean * half"⟩ : ArithmeticVariable).formula? =
      some "half + mean * half" := by
    decide +kernel
  have hcard : braided.catalog.arithmeticNames.card ≤ 4 := by decide +kernel
  have hexpanded : (braided.expand? (Formula.parseWithin Settings.default.maxParseDepth)
      "total").map (fun t ↦ (t.fields, t.value leafSum String.length)) =
        some (["x", "x", "low", "x"], 6) := by
    decide +kernel
  obtain ⟨value, -, -, h⟩ := expand?_value braided Settings.default leafSum String.length hacyclic
  obtain ⟨t, hvalue, hruns⟩ := h "total" _ _ hv htext
  obtain ⟨ht, hrun⟩ := hruns true ([] : List (StoreEvent Unit))
  rw [Settings.readFormula_of_isExact _ (SharedStore.isExact_initial.run []).cache] at ht
  rw [ht, Option.map_some, Option.some_inj, Prod.mk.injEq] at hexpanded
  obtain ⟨hfields, hsum⟩ := hexpanded
  exact ⟨hacyclic, hv, htext, hcard, value, t, hfields, hsum, hvalue ▸ hsum, hrun 4 hcard⟩

end Resolver
end FilterPipeline
