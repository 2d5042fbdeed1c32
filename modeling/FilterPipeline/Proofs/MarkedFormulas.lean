import FilterPipeline.Proofs.CompleteInlining

/-!
# Where the parts of an expansion come from

An expansion with a mark around everything that was inlined, which names the variable, tells at each
place which variables are being expanded there. Main statement: the expansion of a variable is the
one formula with such marks in which each mark stands around the formula of its variable, no
variable is expanded inside of itself, and a variable is left at a leaf only inside of its own
expansion. So expansions are nested no deeper than there are names of variables, and no more fuel
than that is needed.
-/

namespace FilterPipeline

/-- A formula in which all that is inlined is marked with the variable that it stands for. -/
inductive MarkedFormula where
  | number (x : Double)
  | field (path : String)
  | binary (op : BinaryOp) (left right : MarkedFormula)
  | call (f : MathFunction) (arg : MarkedFormula)
  | negate (arg : MarkedFormula)
  /-- The formula of a variable in place of its name. -/
  | inlined (name : String) (body : MarkedFormula)

namespace MarkedFormula

/-- The formula without the marks. -/
def unmarked : MarkedFormula → Formula
  | number x => .number x
  | field path => .field path
  | binary op left right => .binary op left.unmarked right.unmarked
  | call f arg => .call f arg.unmarked
  | negate arg => .negate arg.unmarked
  | inlined _ body => body.unmarked

/-- The formula before anything was inlined. -/
def written : MarkedFormula → Formula
  | number x => .number x
  | field path => .field path
  | binary op left right => .binary op left.written right.written
  | call f arg => .call f arg.written
  | negate arg => .negate arg.written
  | inlined name _ => .field name

/-- The greatest number of marks inside of each other. -/
def nesting : MarkedFormula → Nat
  | number _ | field _ => 0
  | binary _ left right => max left.nesting right.nesting
  | call _ arg | negate arg => arg.nesting
  | inlined _ body => body.nesting + 1

/-- The field leaves from left to right, each with the variables whose expansions it stands in:
those that the formula itself stands in, and in front of them those of its marks. -/
def leaves (within : List String) : MarkedFormula → List (List String × String)
  | number _ => []
  | field path => [(within, path)]
  | binary _ left right => left.leaves within ++ right.leaves within
  | call _ arg | negate arg => arg.leaves within
  | inlined name body => body.leaves (name :: within)

/-- The leaves are those of the formula without marks. -/
theorem map_leaves (m : MarkedFormula) (within : List String) :
    (m.leaves within).map Prod.snd = m.unmarked.fields := by
  induction m generalizing within with
  | number x | field path => rfl
  | binary op left right ihl ihr =>
    simp only [leaves, unmarked, Formula.fields, List.map_append, ihl, ihr]
  | call f arg ih | negate arg ih | inlined name body ih => exact ih _

end MarkedFormula

/-- Puts marked formulas in place of the field leaves for which there is one. -/
def Formula.markedWith (body? : String → Option MarkedFormula) : Formula → MarkedFormula
  | number x => .number x
  | field path => (body? path).elim (.field path) (.inlined path)
  | binary op left right => .binary op (left.markedWith body?) (right.markedWith body?)
  | call f arg => .call f (arg.markedWith body?)
  | negate arg => .negate (arg.markedWith body?)

namespace Formula

variable (body? : String → Option MarkedFormula) (t : Formula)

private theorem written_markedWith : (t.markedWith body?).written = t := by
  induction t with
  | number x => rfl
  | field path => cases h : body? path <;> simp [markedWith, MarkedFormula.written, h]
  | binary op left right ihl ihr => simp only [markedWith, MarkedFormula.written, ihl, ihr]
  | call f arg ih | negate arg ih => simp only [markedWith, MarkedFormula.written, ih]

private theorem unmarked_markedWith : (t.markedWith body?).unmarked =
    t.substitute fun leaf ↦ (body? leaf).map MarkedFormula.unmarked := by
  induction t with
  | number x => rfl
  | field path =>
    cases h : body? path <;> simp [markedWith, MarkedFormula.unmarked, substitute, h]
  | binary op left right ihl ihr =>
    simp only [markedWith, MarkedFormula.unmarked, substitute, ihl, ihr]
  | call f arg ih | negate arg ih => simp only [markedWith, MarkedFormula.unmarked, substitute, ih]

end Formula

/-- The names of the arithmetic variables, each once. -/
def Catalog.arithmeticNames (c : Catalog) : Finset String :=
  (c.arithmetic.map ArithmeticVariable.key).toFinset

namespace Resolver

/-- A name refers to an arithmetic variable that has a formula. -/
def IsInlinable (r : Resolver) (name : String) : Prop :=
  ∃ v text, r.classify name = .arithmetic v ∧ v.formula? = some text

/-- What inlining makes of a formula inside of the expansions of some variables. A leaf is left only
if it cannot be inlined or is one of those variables; and inlined, and marked, is the formula of a
variable that is none of them. -/
def IsExpansion (r : Resolver) (read : String → Formula) (within : List String) :
    MarkedFormula → Prop
  | .number _ => True
  | .field path => r.IsInlinable path → path ∈ within
  | .binary _ left right => r.IsExpansion read within left ∧ r.IsExpansion read within right
  | .call _ arg | .negate arg => r.IsExpansion read within arg
  | .inlined name body => name ∉ within ∧
    (∃ v text, r.classify name = .arithmetic v ∧ v.formula? = some text ∧
      body.written = read text) ∧
    r.IsExpansion read (name :: within) body

variable {r : Resolver} {read : String → Formula} {within : List String}

private theorem isExpansion_markedWith {body? : String → Option MarkedFormula} {t : Formula}
    (h : ∀ leaf ∈ t.fields, r.IsExpansion read within
      ((body? leaf).elim (.field leaf) (.inlined leaf))) :
    r.IsExpansion read within (t.markedWith body?) := by
  induction t with
  | number x => trivial
  | field path => exact h path (List.mem_singleton_self path)
  | binary op left right ihl ihr =>
    exact ⟨ihl fun leaf hleaf ↦ h leaf (List.mem_append_left _ hleaf),
      ihr fun leaf hleaf ↦ h leaf (List.mem_append_right _ hleaf)⟩
  | call f arg ih | negate arg ih => exact ih h

namespace IsExpansion

variable {m : MarkedFormula}

private theorem field_ne_inlined {name : String} {body : MarkedFormula}
    (h : r.IsExpansion read within (.field name)) :
    ¬ r.IsExpansion read within (.inlined name body) := by
  rintro ⟨hnew, ⟨v, text, hv, htext, -⟩, -⟩
  exact hnew (h ⟨v, text, hv, htext⟩)

/-- What inlining makes of a formula is determined by the formula. -/
theorem unique (h : r.IsExpansion read within m) {m' : MarkedFormula}
    (h' : r.IsExpansion read within m') (hwritten : m.written = m'.written) : m = m' := by
  induction m generalizing within m' with
  | number x =>
    cases m' <;> simp only [MarkedFormula.written, reduceCtorEq] at hwritten
    rw [Formula.number.inj hwritten]
  | field path =>
    cases m' <;> simp only [MarkedFormula.written, reduceCtorEq] at hwritten
    · rw [Formula.field.inj hwritten]
    · obtain rfl := Formula.field.inj hwritten
      exact absurd h' (field_ne_inlined h)
  | binary op left right ihl ihr =>
    cases m' <;> simp only [MarkedFormula.written, reduceCtorEq] at hwritten
    obtain ⟨rfl, hleft, hright⟩ := Formula.binary.inj hwritten
    rw [ihl h.1 h'.1 hleft, ihr h.2 h'.2 hright]
  | call f arg ih =>
    cases m' <;> simp only [MarkedFormula.written, reduceCtorEq] at hwritten
    next g arg' =>
      obtain ⟨rfl, harg⟩ := Formula.call.inj hwritten
      change r.IsExpansion read within arg' at h'
      rw [ih h h' harg]
  | negate arg ih =>
    cases m' <;> simp only [MarkedFormula.written, reduceCtorEq] at hwritten
    next arg' =>
      change r.IsExpansion read within arg' at h'
      rw [ih h h' (Formula.negate.inj hwritten)]
  | inlined name body ih =>
    cases m' <;> simp only [MarkedFormula.written, reduceCtorEq] at hwritten
    · obtain rfl := Formula.field.inj hwritten
      exact absurd h (field_ne_inlined h')
    · obtain rfl := Formula.field.inj hwritten
      obtain ⟨-, ⟨v, text, hv, htext, hbody⟩, hexpand⟩ := h
      obtain ⟨-, ⟨v', text', hv', htext', hbody'⟩, hexpand'⟩ := h'
      obtain rfl : v = v' := FieldKind.arithmetic.inj (hv.symm.trans hv')
      obtain rfl : text = text' := Option.some.inj (htext.symm.trans htext')
      rw [ih hexpand hexpand' (hbody.trans hbody'.symm)]

/-- Expansions are nested no deeper than there are names of variables that are not being expanded
already. -/
theorem nesting_le (h : r.IsExpansion read within m) :
    m.nesting ≤ unmet (r.catalog.arithmetic.map ArithmeticVariable.key) within := by
  induction m generalizing within with
  | number x | field path => exact Nat.zero_le _
  | binary op left right ihl ihr => exact Nat.max_le.mpr ⟨ihl h.1, ihr h.2⟩
  | call f arg ih | negate arg ih => exact ih h
  | inlined name body ih =>
    obtain ⟨hnew, ⟨v, text, hv, -, -⟩, hexpand⟩ := h
    have hkey := Catalog.mem_keys_of_arithmetic? (arithmetic?_of_classify hv)
    have hlt := unmet_lt hkey hnew List.mem_cons_self (List.subset_cons_self name within)
    exact Nat.lt_of_le_of_lt (ih hexpand) hlt

/-- An arithmetic variable that is left at a leaf stands inside of its own expansion. -/
theorem mem_of_mem_leaves (h : r.IsExpansion read within m) {chain : List String} {leaf : String}
    (hleaf : (chain, leaf) ∈ m.leaves within) (hinlinable : r.IsInlinable leaf) :
    leaf ∈ chain := by
  induction m generalizing within with
  | number x => cases hleaf
  | field path =>
    obtain ⟨rfl, rfl⟩ := Prod.mk.inj (List.mem_singleton.mp hleaf)
    exact h hinlinable
  | binary op left right ihl ihr =>
    rcases List.mem_append.mp hleaf with hleaf | hleaf
    · exact ihl h.1 hleaf
    · exact ihr h.2 hleaf
  | call f arg ih | negate arg ih => exact ih h hleaf
  | inlined name body ih => exact ih h.2.2 hleaf

end IsExpansion

/-- What a leaf is replaced by inside of the expansions of some variables. -/
def replacement? (r : Resolver) (active : List String) (expand : String → Option Formula)
    (leaf : String) : Option Formula :=
  if active.contains leaf then none
  else
    match r.classify leaf with
    | .arithmetic _ => expand leaf
    | _ => none

section Replacement

variable {expand : String → Option Formula} {active : List String} {leaf : String}

private theorem replacement?_of_mem (h : leaf ∈ active) :
    r.replacement? active expand leaf = none :=
  if_pos (by simpa using h)

private theorem replacement?_of_arithmetic {v : ArithmeticVariable} (hnew : leaf ∉ active)
    (h : r.classify leaf = .arithmetic v) : r.replacement? active expand leaf = expand leaf := by
  simp [replacement?, hnew, h]

private theorem replacement?_of_not_arithmetic (h : ∀ v, r.classify leaf ≠ .arithmetic v) :
    r.replacement? active expand leaf = none := by
  unfold replacement?
  split
  · rfl
  · split
    · next v hv => exact absurd hv (h v)
    · rfl

variable {fuel : Nat} {name : String} {v : ArithmeticVariable}

/-- A variable without formula is not expanded. -/
theorem expandWithin_eq_none (hv : r.catalog.arithmetic? name = some v) (h : v.formula? = none) :
    r.expandWithin read fuel active name = none := by
  cases fuel with
  | zero => rfl
  | succ fuel => simp [expandWithin, hv, h]

/-- A variable is expanded leaf by leaf. -/
theorem expandWithin_succ {text : String} (hv : r.catalog.arithmetic? name = some v)
    (htext : v.formula? = some text) : r.expandWithin read (fuel + 1) active name =
      some ((read text).substitute
        (r.replacement? (name :: active) (r.expandWithin read fuel (name :: active)))) := by
  simp only [expandWithin, hv, htext, Option.bind_eq_bind, Option.bind_some]
  rfl

private theorem replacement?_of_not_isInlinable (h : ¬ r.IsInlinable leaf) :
    r.replacement? active (r.expandWithin read fuel active) leaf = none := by
  by_cases hold : leaf ∈ active
  · exact replacement?_of_mem hold
  by_cases hleaf : ∃ v, r.classify leaf = .arithmetic v
  · obtain ⟨v, hv⟩ := hleaf
    have htext : v.formula? = none :=
      Option.eq_none_iff_forall_ne_some.mpr fun text htext ↦ h ⟨v, text, hv, htext⟩
    rw [replacement?_of_arithmetic hold hv]
    exact expandWithin_eq_none (arithmetic?_of_classify hv) htext
  · exact replacement?_of_not_arithmetic (not_exists.mp hleaf)

end Replacement

private theorem exists_isExpansion {fuel : Nat} {active : List String} {name : String}
    {v : ArithmeticVariable} {text : String} (hv : r.catalog.arithmetic? name = some v)
    (htext : v.formula? = some text) (hnew : name ∉ active)
    (hfuel : unmet (r.catalog.arithmetic.map ArithmeticVariable.key) active ≤ fuel) :
    ∃ m : MarkedFormula, m.written = read text ∧ r.IsExpansion read (name :: active) m ∧
      r.expandWithin read fuel active name = some m.unmarked := by
  have hkey := Catalog.mem_keys_of_arithmetic? hv
  induction fuel generalizing active name v text with
  | zero => exact absurd (mem_of_unmet_eq_zero (Nat.le_zero.mp hfuel) hkey) hnew
  | succ fuel ih =>
    have hlt := unmet_lt hkey hnew List.mem_cons_self (List.subset_cons_self name active)
    have hbody : ∀ leaf, ∃ body? : Option MarkedFormula,
        body?.map MarkedFormula.unmarked =
          r.replacement? (name :: active) (r.expandWithin read fuel (name :: active)) leaf ∧
        r.IsExpansion read (name :: active) (body?.elim (.field leaf) (.inlined leaf)) := by
      intro leaf
      by_cases hold : leaf ∈ name :: active
      · exact ⟨none, (replacement?_of_mem hold).symm, fun _ ↦ hold⟩
      by_cases hleaf : r.IsInlinable leaf
      · obtain ⟨w, text', hw, htext'⟩ := hleaf
        have hfound := arithmetic?_of_classify hw
        obtain ⟨m, hwritten, hexpand, hm⟩ := ih hfound htext' hold (by omega)
          (Catalog.mem_keys_of_arithmetic? hfound)
        rw [replacement?_of_arithmetic hold hw, hm]
        exact ⟨some m, rfl, hold, ⟨w, text', hw, htext', hwritten⟩, hexpand⟩
      · rw [replacement?_of_not_isInlinable hleaf]
        exact ⟨none, rfl, fun h ↦ absurd h hleaf⟩
    choose body? hunmarked hexpand using hbody
    refine ⟨(read text).markedWith body?, Formula.written_markedWith _ _,
      isExpansion_markedWith fun leaf _ ↦ hexpand leaf, ?_⟩
    rw [expandWithin_succ hv htext, Formula.unmarked_markedWith]
    exact congrArg (fun f ↦ some ((read text).substitute f)) (funext hunmarked).symm

private theorem formula_cases (c : Catalog) (name : String) :
    (c.arithmetic? name = none ∨ ∃ v, c.arithmetic? name = some v ∧ v.formula? = none) ∨
      ∃ v text, c.arithmetic? name = some v ∧ v.formula? = some text := by
  cases c.arithmetic? name with
  | none => exact .inl (.inl rfl)
  | some v =>
    cases htext : v.formula? with
    | none => exact .inl (.inr ⟨v, rfl, htext⟩)
    | some text => exact .inr ⟨v, text, rfl, htext⟩

section Fuel

variable {name : String} {fuel : Nat} (hfuel : r.catalog.arithmeticNames.card ≤ fuel)

include hfuel

/-- A variable with a formula is expanded with as much fuel as there are names of variables. -/
theorem exists_expandWithin_isExpansion (read : String → Formula) {v : ArithmeticVariable}
    {text : String} (hv : r.catalog.arithmetic? name = some v) (htext : v.formula? = some text) :
    ∃ m : MarkedFormula, m.written = read text ∧ r.IsExpansion read [name] m ∧
      r.expandWithin read fuel [] name = some m.unmarked := by
  apply exists_isExpansion hv htext List.not_mem_nil
  simpa [unmet, Catalog.arithmeticNames] using hfuel

/-- Nothing else is expanded. -/
theorem expandWithin_eq_none_iff : r.expandWithin read fuel [] name = none ↔
    r.catalog.arithmetic? name = none ∨
      ∃ v, r.catalog.arithmetic? name = some v ∧ v.formula? = none := by
  constructor
  · intro h
    rcases formula_cases r.catalog name with hnone | ⟨v, text, hv, htext⟩
    · exact hnone
    · obtain ⟨m, -, -, hm⟩ := exists_expandWithin_isExpansion hfuel read hv htext
      rw [h] at hm
      cases hm
  · rintro (hv | ⟨v, hv, htext⟩)
    · cases fuel <;> simp [expandWithin, hv]
    · exact expandWithin_eq_none hv htext

/-- More fuel makes no difference. -/
theorem expandWithin_eq_of_card_le {more : Nat} (hmore : r.catalog.arithmeticNames.card ≤ more) :
    r.expandWithin read more [] name = r.expandWithin read fuel [] name := by
  rcases formula_cases r.catalog name with hnone | ⟨v, text, hv, htext⟩
  · rw [(expandWithin_eq_none_iff hmore).mpr hnone, (expandWithin_eq_none_iff hfuel).mpr hnone]
  · obtain ⟨m, hwritten, hexpand, hm⟩ :=
      exists_expandWithin_isExpansion hfuel read hv htext
    obtain ⟨m', hwritten', hexpand', hm'⟩ :=
      exists_expandWithin_isExpansion hmore read hv htext
    rw [hm, hm', hexpand'.unique hexpand (hwritten'.trans hwritten.symm)]

end Fuel

/-- There are no more names of variables than variables. -/
theorem card_arithmeticNames_le : r.catalog.arithmeticNames.card ≤ r.catalog.arithmetic.length := by
  rw [← List.length_map ArithmeticVariable.key]
  exact List.toFinset_card_le _

/-- Whatever the settings and the formulas kept, a name is expanded unless it is the name of no
arithmetic variable or its equation has no formula, and as much fuel as there are names of variables
is enough. What comes out is the one formula that inlining can make of the variable's own: in it
expansions are nested no deeper than there are names, none inside of itself, and each arithmetic
variable with a formula that is left at a leaf stands inside of its own expansion. -/
theorem expand?_isExpansion (r : Resolver) (s : Settings) (kept : FormulaCache) (name : String) :
    (r.expand? (s.readFormula kept) name = none ↔ r.catalog.arithmetic? name = none ∨
      ∃ v, r.catalog.arithmetic? name = some v ∧ v.formula? = none) ∧
    (∀ fuel, r.catalog.arithmeticNames.card ≤ fuel →
      r.expandWithin (s.readFormula kept) fuel [] name =
        r.expand? (s.readFormula kept) name) ∧
    ∀ v text, r.catalog.arithmetic? name = some v → v.formula? = some text →
      ∃ m : MarkedFormula, m.written = s.readFormula kept text ∧
        r.IsExpansion (s.readFormula kept) [name] m ∧
        (∀ m' : MarkedFormula, m'.written = s.readFormula kept text →
          r.IsExpansion (s.readFormula kept) [name] m' → m' = m) ∧
        r.expand? (s.readFormula kept) name = some m.unmarked ∧
        m.nesting < r.catalog.arithmeticNames.card ∧
        (m.leaves [name]).map Prod.snd = m.unmarked.fields ∧
        ∀ chain leaf, (chain, leaf) ∈ m.leaves [name] → r.IsInlinable leaf → leaf ∈ chain := by
  refine ⟨expandWithin_eq_none_iff card_arithmeticNames_le, fun fuel hfuel ↦
    expandWithin_eq_of_card_le card_arithmeticNames_le hfuel, fun v text hv htext ↦ ?_⟩
  obtain ⟨m, hwritten, hexpand, hm⟩ := exists_expandWithin_isExpansion
    card_arithmeticNames_le (s.readFormula kept) hv htext
  have hnesting : m.nesting < r.catalog.arithmeticNames.card := by
    have hkey := Catalog.mem_keys_of_arithmetic? hv
    refine Nat.lt_of_le_of_lt hexpand.nesting_le ?_
    simpa [unmet, Catalog.arithmeticNames] using
      unmet_lt hkey List.not_mem_nil (List.mem_singleton_self name) (List.nil_subset _)
  exact ⟨m, hwritten, hexpand, fun m' hwritten' hexpand' ↦
    hexpand'.unique hexpand (hwritten'.trans hwritten.symm), hm, hnesting, m.map_leaves [name],
    fun _ _ hleaf ↦ hexpand.mem_of_mem_leaves hleaf⟩

/-- Three variables, of which two refer to themselves through each other and the third to one of
them, and a second definition of the third. -/
def knotted : Resolver where
  schema := .empty
  catalog :=
    { arithmetic := [⟨"x", "x = y + z"⟩, ⟨"y", "y = x * 2 - y"⟩,
        ⟨"z", "z = \\frac\x7bf\x7d\x7by\x7d"⟩, ⟨"z", "z = 0"⟩]
      lists := [] }

/-- Settings under which no formulas are kept. -/
def uncached : Settings := { Settings.default with useParseCache := false }

/-- The expansion of the first variable ends with fuel for three. It leaves that variable and the
second, but only where they stand inside of their own expansions. -/
theorem knotted_expand? : knotted.catalog.arithmeticNames.card ≤ 3 ∧
    knotted.catalog.arithmetic? "x" = some ⟨"x", "x = y + z"⟩ ∧
    (⟨"x", "x = y + z"⟩ : ArithmeticVariable).formula? = some "y + z" ∧
    knotted.expandWithin (uncached.readFormula .empty) 3 [] "x" =
      knotted.expand? (uncached.readFormula .empty) "x" ∧
    ∃ m : MarkedFormula, m.written = uncached.readFormula .empty "y + z" ∧
      knotted.expand? (uncached.readFormula .empty) "x" = some m.unmarked ∧
      m.unmarked.fields = ["x", "y", "f", "x", "y"] ∧
      ∀ chain leaf, (chain, leaf) ∈ m.leaves ["x"] → knotted.IsInlinable leaf → leaf ∈ chain := by
  have hcard : knotted.catalog.arithmeticNames.card ≤ 3 := by decide +kernel
  have hv : knotted.catalog.arithmetic? "x" = some ⟨"x", "x = y + z"⟩ := by rfl
  have htext : (⟨"x", "x = y + z"⟩ : ArithmeticVariable).formula? = some "y + z" := by
    decide +kernel
  have hfields : (knotted.expand? (uncached.readFormula .empty) "x").map Formula.fields =
      some ["x", "y", "f", "x", "y"] := by
    decide +kernel
  obtain ⟨-, hfuel, hexpand⟩ := expand?_isExpansion knotted uncached .empty "x"
  obtain ⟨m, hwritten, -, -, hm, -, -, hleaves⟩ := hexpand _ _ hv htext
  rw [hm] at hfields
  exact ⟨hcard, hv, htext, hfuel 3 hcard, m, hwritten, hm, Option.some.inj hfields, hleaves⟩

end Resolver
end FilterPipeline
