import FilterPipeline.Proofs.DepthFirst
import FilterPipeline.Proofs.Inlining

/-!
# Dependencies as reachability

An arithmetic variable leads to the identifiers of its formula; paths and list variables lead
nowhere. Main statement: a name depends on just the paths and list variables that it leads to,
itself included, whether or not variables lead back to themselves and in whatever order their
formulas have their identifiers. A depth-first walk, too, ends with what the name leads to.
-/

namespace FilterPipeline

open Relation

/-- Two catalogs with the same list variables, and with arithmetic variables of the same names whose
formulas have the same identifiers, in whatever order. -/
structure Catalog.SameIdentifiers (c c' : Catalog) : Prop where
  lists : c.lists = c'.lists
  arithmetic : List.Forall₂
    (fun v w ↦ v.key = w.key ∧ ∀ a, a ∈ v.dependencies ↔ a ∈ w.dependencies)
    c.arithmetic c'.arithmetic

namespace Catalog.SameIdentifiers

variable {c c' : Catalog} (h : c.SameIdentifiers c')

include h

private theorem arithmetic? (name : String) : Option.Rel
    (fun v w ↦ ∀ a, a ∈ v.dependencies ↔ a ∈ w.dependencies)
    (c.arithmetic? name) (c'.arithmetic? name) := by
  have hvariables := h.arithmetic
  unfold Catalog.arithmetic?
  generalize c.arithmetic = vs, c'.arithmetic = ws at hvariables
  induction hvariables with
  | nil => exact .none
  | @cons v w vs ws hvw _ ih =>
    obtain ⟨hkey, hnames⟩ := hvw
    rw [List.find?_cons, List.find?_cons, hkey]
    split
    · exact .some hnames
    · exact ih

end Catalog.SameIdentifiers

namespace Resolver

/-- The first name is an arithmetic variable, and the second an identifier of its formula. -/
def DependsOn (r : Resolver) (a b : String) : Prop :=
  ∃ v text, r.classify a = .arithmetic v ∧ v.formula? = some text ∧
    b ∈ Formula.dependencies text

variable {r : Resolver} {name : String}

/-- What a name refers to directly is what it depends on directly. -/
theorem refers_successors : Refers r.successors = r.DependsOn := by
  funext a b
  apply propext
  rw [refers_successors_iff]
  constructor
  · rintro ⟨v, hv, hb⟩
    cases htext : v.formula? with
    | none => simp [ArithmeticVariable.dependencies, htext] at hb
    | some text =>
      exact ⟨v, text, hv, htext, by simpa [ArithmeticVariable.dependencies, htext] using hb⟩
  · rintro ⟨v, text, hv, htext, hb⟩
    exact ⟨v, hv, by simpa [ArithmeticVariable.dependencies, htext] using hb⟩

/-- A path that a name depends on is one that it leads to. -/
theorem mem_baseFields_iff {a : String} : a ∈ (r.dependencies name).baseFields ↔
    r.classify a = .base ∧ ReflTransGen r.DependsOn name a := by
  simp only [dependencies, mem_sortedNames, List.mem_filter, mem_dependents_iff,
    refers_successors]
  rw [and_comm]
  apply and_congr_left
  intro _
  cases r.classify a <;> simp [FieldKind.isBase]

/-- A list variable that a name depends on is one that it leads to. -/
theorem mem_listVariables_iff {a : String} : a ∈ (r.dependencies name).listVariables ↔
    (∃ v op, r.classify a = .list v op) ∧ ReflTransGen r.DependsOn name a := by
  simp only [dependencies, mem_sortedNames, List.mem_filter, mem_dependents_iff,
    refers_successors]
  rw [and_comm]
  apply and_congr_left
  intro _
  cases r.classify a <;> simp [FieldKind.isList]

/-- A depth-first walk from a name ends, in whatever order identifiers are taken, and has met what
the name leads to. -/
theorem exists_walks_dependsOn {order : String → List String}
    (horder : Refers order = r.DependsOn) (name : String) :
    ∃ met, Walks order [] [name] met ∧ ∀ a, a ∈ met ↔ ReflTransGen r.DependsOn name a := by
  have href : ∀ a b, Refers order a b → a ∈ r.catalog.arithmetic.map ArithmeticVariable.key := by
    intro a b hab
    rw [horder, ← refers_successors] at hab
    exact mem_keys_of_refers hab
  obtain ⟨met, hwalk⟩ := exists_walks href [] [name]
  refine ⟨met, hwalk, fun a ↦ ?_⟩
  rw [hwalk.mem_iff, horder]
  simp

/-- Two kinds of names: paths both, list variables with one definition both, or arithmetic variables
whose formulas have the same identifiers. -/
inductive SameKind : FieldKind → FieldKind → Prop
  | base : SameKind .base .base
  | list {v : ListVariable} {op : ListOperator} : SameKind (.list v op) (.list v op)
  | arithmetic {v w : ArithmeticVariable} (h : ∀ a, a ∈ v.dependencies ↔ a ∈ w.dependencies) :
      SameKind (.arithmetic v) (.arithmetic w)

variable {r' : Resolver} (h : r.catalog.SameIdentifiers r'.catalog)

include h

/-- Where catalogs have the same identifiers, names are of the same kind. -/
theorem sameKind_classify (a : String) : SameKind (r.classify a) (r'.classify a) := by
  unfold classify
  rw [show r.catalog.list? a = r'.catalog.list? a by rw [Catalog.list?, Catalog.list?, h.lists]]
  split
  · exact .list
  · have hfound := h.arithmetic? a
    generalize r.catalog.arithmetic? a = v, r'.catalog.arithmetic? a = w at hfound
    cases hfound with
    | none => exact .base
    | some hvw => exact .arithmetic hvw

private theorem refers_successors_congr : Refers r.successors = Refers r'.successors := by
  funext a b
  apply propext
  rw [Refers, Refers, successors, successors]
  have hkind := sameKind_classify h a
  generalize r.classify a = k, r'.classify a = k' at hkind
  cases hkind with
  | base | list => rfl
  | arithmetic hvw => exact hvw b

/-- Where catalogs have the same identifiers, names depend on the same names. -/
theorem dependencies_congr : r'.dependencies name = r.dependencies name := by
  have hmem : ∀ a, a ∈ r'.dependents name ↔ a ∈ r.dependents name := fun a ↦ by
    rw [mem_dependents_iff, mem_dependents_iff, refers_successors_congr h]
  have hkind : ∀ a, (r'.classify a).isBase = (r.classify a).isBase ∧
      (r'.classify a).isList = (r.classify a).isList := fun a ↦ by
    have hkind := sameKind_classify h a
    generalize r.classify a = k, r'.classify a = k' at hkind
    cases hkind <;> exact ⟨rfl, rfl⟩
  simp only [dependencies, Dependencies.mk.injEq]
  constructor
  · apply sortedNames_congr
    intro a
    rw [List.mem_filter, List.mem_filter, hmem, (hkind a).1]
  · apply sortedNames_congr
    intro a
    rw [List.mem_filter, List.mem_filter, hmem, (hkind a).2]

omit h

/-- A name depends on the paths and on the list variables that it leads to, and on nothing else: the
answer holds each of them once, in order. A depth-first walk from the name ends, in whatever order
it takes the identifiers of a formula, and has met just what the name leads to; and the answer is
the same where formulas have their identifiers in another order. -/
theorem dependencies_iff_reachable (r : Resolver) (name : String) :
    (∀ a, a ∈ (r.dependencies name).baseFields ↔
      r.classify a = .base ∧ ReflTransGen r.DependsOn name a) ∧
    (∀ a, a ∈ (r.dependencies name).listVariables ↔
      (∃ v op, r.classify a = .list v op) ∧ ReflTransGen r.DependsOn name a) ∧
    (r.dependencies name).baseFields.Pairwise (· < ·) ∧
    (r.dependencies name).listVariables.Pairwise (· < ·) ∧
    (∀ order : String → List String, (∀ a b, b ∈ order a ↔ r.DependsOn a b) →
      ∃ met, Walks order [] [name] met ∧ ∀ a, a ∈ met ↔ ReflTransGen r.DependsOn name a) ∧
    ∀ r' : Resolver, r.catalog.SameIdentifiers r'.catalog →
      r'.dependencies name = r.dependencies name := by
  refine ⟨fun a ↦ mem_baseFields_iff, fun a ↦ mem_listVariables_iff, pairwise_sortedNames,
    pairwise_sortedNames, fun order horder ↦ ?_, fun r' h ↦ dependencies_congr h⟩
  exact exists_walks_dependsOn (funext fun a ↦ funext fun b ↦ propext (horder a b)) name

/-- Two variables that refer to each other, a path and a list variable, which hides a variable. -/
def tangled : Resolver where
  schema := .empty
  catalog :=
    { arithmetic := [⟨"a", "a = b + f * low"⟩, ⟨"b", "b = a - jd"⟩, ⟨"low", "low = x"⟩]
      lists := [⟨"low", ⟨"prv", some (.list (.aggregate .min)), some "jd", .literal .null,
        none, none, none⟩⟩] }

/-- The same variables with the identifiers of their formulas in another order. -/
def retangled : Resolver where
  schema := .empty
  catalog :=
    { arithmetic := [⟨"a", "a = low * f + b"⟩, ⟨"b", "b = jd - a"⟩, ⟨"low", "low = x"⟩]
      lists := tangled.catalog.lists }

/-- A walk through the two variables that refer to each other ends, and meets the path that only the
second one names. What the first one depends on does not change with the order of identifiers. -/
theorem tangled_dependencies : (∀ a b, b ∈ tangled.successors a ↔ tangled.DependsOn a b) ∧
    tangled.catalog.SameIdentifiers retangled.catalog ∧
    (∃ met, Walks tangled.successors [] ["a"] met ∧ "jd" ∈ met) ∧
    "jd" ∈ (tangled.dependencies "a").baseFields ∧
    retangled.dependencies "a" = tangled.dependencies "a" := by
  have horder : ∀ a b, b ∈ tangled.successors a ↔ tangled.DependsOn a b :=
    fun a b ↦ iff_of_eq (congrFun (congrFun refers_successors a) b)
  have hsame : tangled.catalog.SameIdentifiers retangled.catalog :=
    ⟨rfl, .cons ⟨rfl, fun _ ↦ (by decide +kernel : List.Perm _ _).mem_iff⟩
      (.cons ⟨rfl, fun _ ↦ (by decide +kernel : List.Perm _ _).mem_iff⟩
        (.cons ⟨rfl, fun _ ↦ Iff.rfl⟩ .nil))⟩
  have hjd : ReflTransGen tangled.DependsOn "a" "jd" := by
    rw [← refers_successors]
    have hab : Refers tangled.successors "a" "b" := by unfold Refers; decide +kernel
    have hbjd : Refers tangled.successors "b" "jd" := by unfold Refers; decide +kernel
    exact .head hab (.single hbjd)
  obtain ⟨hbase, -, -, -, hwalk, hother⟩ := dependencies_iff_reachable tangled "a"
  obtain ⟨met, hmet, hiff⟩ := hwalk tangled.successors horder
  exact ⟨horder, hsame, ⟨met, hmet, (hiff "jd").mpr hjd⟩,
    (hbase "jd").mpr ⟨by rfl, hjd⟩, hother retangled hsame⟩

end Resolver
end FilterPipeline
