import FilterPipeline.Compile.Compiler
import FilterPipeline.Proofs.CycleCheck
import FilterPipeline.Proofs.FormulaTokens

/-!
# Dependencies of inlined formulas

Where a comparison names an arithmetic variable, the formulas of all variables that it leads to are
inlined, while the projection keeps what dependency analysis found. Main statement: every ordinary
name at a leaf of the inlined formula is found, provided that no variable on the way is hidden from
the analysis by its name or by a formula that reads differently under the limit that is set.
-/

namespace FilterPipeline

open Relation

namespace Formula

/-- An identifier that dependency analysis does not take for something else. -/
structure IsOrdinary (name : String) : Prop where
  identifier : isIdentifier name.toList = true
  noDotAtEnd : name.toList.getLast? ≠ some '.'
  noFunction : MathFunction.ofName? name.toList = none
  noNotation : name ∉ notationWords
  noElement : isElementPath name = false

/-- Whether a name is ordinary is decided by its text. -/
instance (name : String) : Decidable (IsOrdinary name) :=
  decidable_of_iff (isIdentifier name.toList = true ∧ name.toList.getLast? ≠ some '.' ∧
      MathFunction.ofName? name.toList = none ∧ name ∉ notationWords ∧ isElementPath name = false)
    ⟨fun ⟨h, hdot, hf, hn, he⟩ ↦ ⟨h, hdot, hf, hn, he⟩,
      fun h ↦ ⟨h.identifier, h.noDotAtEnd, h.noFunction, h.noNotation, h.noElement⟩⟩

private theorem IsOrdinary.dependency? {name : String} (h : IsOrdinary name) :
    dependency? name.toList = some name := by
  have hdots : dropDots name.toList = name.toList := by
    have hlast := h.noDotAtEnd
    rw [← List.head?_reverse] at hlast
    rw [dropDots]
    cases hr : name.toList.reverse with
    | nil => exact (List.reverse_eq_nil_iff.mp hr).symm
    | cons c cs =>
      rw [hr, List.head?_cons, ne_eq, Option.some_inj] at hlast
      rw [List.dropWhile_cons_of_neg (by simpa using hlast), ← hr, List.reverse_reverse]
  have hne : name.toList.isEmpty = false := by
    cases hcs : name.toList with
    | nil => simpa [hcs, isIdentifier] using h.identifier
    | cons c cs => rfl
  simp only [Formula.dependency?, hdots, String.ofList_toList, hne, h.noFunction, h.noElement]
  simp [h.noNotation]

/-- Leaving out repetitions keeps which names there are. -/
theorem mem_firstOccurrences {names : List String} {name : String} :
    name ∈ firstOccurrences names ↔ name ∈ names := by
  have hfold : ∀ seen : List String,
      name ∈ names.foldl (fun seen name ↦ if seen.contains name then seen else name :: seen) seen ↔
        name ∈ seen ∨ name ∈ names := by
    induction names with
    | nil => simp
    | cons a names ih =>
      intro seen
      rw [List.foldl_cons, ih, List.mem_cons]
      split
      · next h =>
        have ha : a ∈ seen := by simpa using h
        constructor
        · rintro (h | h)
          · exact .inl h
          · exact .inr (.inr h)
        · rintro (h | rfl | h)
          · exact .inl h
          · exact .inl ha
          · exact .inr h
      · rw [List.mem_cons, or_assoc, or_left_comm]
  rw [firstOccurrences, List.mem_reverse, hfold]
  simp

private theorem mem_dependencies_of_mem_fields {limit : Nat} {text leaf : String}
    (hclean : cleanWithin limit text.toList = cleanWithin defaultLimit text.toList)
    (hleaf : IsOrdinary leaf) (h : leaf ∈ (parseWithin limit text).fields) :
    leaf ∈ dependencies text := by
  rw [parseWithin, hclean] at h
  rw [dependencies, mem_firstOccurrences, List.mem_filterMap]
  exact ⟨leaf.toList, mem_identifiers_of_mem_fields hleaf.identifier h, hleaf.dependency?⟩

/-- The leaves after replacing are those of the replacements and the leaves without one. -/
theorem fields_substitute (replacement : String → Option Formula) (t : Formula) :
    (t.substitute replacement).fields =
      t.fields.flatMap fun leaf ↦ ((replacement leaf).map fields).getD [leaf] := by
  induction t with
  | number x => rfl
  | field path =>
    simp only [substitute, fields, List.flatMap_cons, List.flatMap_nil, List.append_nil]
    cases replacement path with
    | none => rfl
    | some t => rfl
  | binary op left right ihl ihr => simp only [substitute, fields, ihl, ihr, List.flatMap_append]
  | call f arg ih => simp only [substitute, fields, ih]
  | negate arg ih => simp only [substitute, fields, ih]

end Formula

/-- Without formulas kept, a formula is read with the limit that is set. -/
theorem Settings.readFormula_empty (s : Settings) (text : String) :
    s.readFormula .empty text = Formula.parseWithin s.maxParseDepth text := by
  have hnone : FormulaCache.empty.get? text s.maxParseDepth = none := by
    rw [FormulaCache.get?, FormulaCache.empty]
    exact Std.HashMap.getElem?_empty
  simp only [Settings.readFormula, FormulaCache.parse, hnone]
  split
  · rfl
  · rfl

namespace Resolver

/-- The formula of the first name has a leaf that names the arithmetic variable with the second. -/
def Inlines (r : Resolver) (read : String → Formula) (a b : String) : Prop :=
  ∃ v text, r.classify a = .arithmetic v ∧ v.formula? = some text ∧ b ∈ (read text).fields ∧
    ∃ w, r.classify b = .arithmetic w

variable {r : Resolver} {read : String → Formula}

/-- What is inlined is an arithmetic variable. -/
theorem Inlines.exists_classify {a b : String} (h : r.Inlines read a b) :
    ∃ w, r.classify b = .arithmetic w := by
  obtain ⟨_, _, -, -, -, hw⟩ := h
  exact hw

/-- A name refers directly to the dependencies of the arithmetic variable that it names. -/
theorem refers_successors_iff {a b : String} :
    Refers r.successors a b ↔ ∃ v, r.classify a = .arithmetic v ∧ b ∈ v.dependencies := by
  rw [Refers, successors]
  split
  · next v hv => simp [hv]
  · next hv =>
    simp only [List.not_mem_nil, false_iff, not_exists, not_and]
    exact fun v h ↦ absurd h (hv v)

/-- Only names of arithmetic variables refer to others. -/
theorem mem_keys_of_refers {a b : String} (h : Refers r.successors a b) :
    a ∈ r.catalog.arithmetic.map ArithmeticVariable.key := by
  obtain ⟨v, hv, -⟩ := refers_successors_iff.mp h
  exact Catalog.mem_keys_of_arithmetic? (arithmetic?_of_classify hv)

/-- A name depends on all that a chain of references leads to. -/
theorem mem_dependents_iff {a b : String} :
    b ∈ r.dependents a ↔ ReflTransGen (Refers r.successors) a b := by
  rw [dependents, mem_reachable_iff (r.catalog.arithmetic.map ArithmeticVariable.key)
    (fun _ _ h ↦ mem_keys_of_refers h) (by rw [List.length_map])]
  simp

/-- What a chain of references leads to is a path, a list variable or an arithmetic variable. -/
theorem mem_dependencies_of_refers {name leaf : String}
    (h : ReflTransGen (Refers r.successors) name leaf)
    (hleaf : ∀ v, r.classify leaf ≠ .arithmetic v) :
    leaf ∈ (r.dependencies name).baseFields ∨ leaf ∈ (r.dependencies name).listVariables := by
  simp only [dependencies, mem_sortedNames, List.mem_filter, mem_dependents_iff]
  cases hc : r.classify leaf with
  | base => exact .inl ⟨h, rfl⟩
  | arithmetic v => exact absurd hc (hleaf v)
  | list v op => exact .inr ⟨h, rfl⟩

/-- In a valid catalog the references of arithmetic variables lead to no variable again. -/
theorem not_transGen_of_validate (hvalid : r.catalog.validate r.schema = .ok ()) {name : String}
    {v : ArithmeticVariable} (hname : r.classify name = .arithmetic v) (hkey : v.key = v.name) :
    ¬ TransGen (Refers r.successors) name name := by
  have harith := arithmetic?_of_classify hname
  have hv := (Catalog.validate_eq_ok_iff.mp hvalid).2 v (Catalog.mem_of_arithmetic? harith)
  have hcyclic : r.catalog.isCyclic v.name = false := by
    rw [Catalog.validateArithmetic] at hv
    split at hv
    · cases hv
    · split at hv
      · cases hv
      · next h => exact Bool.eq_false_iff.mpr h
  rw [← hkey, Catalog.key_of_arithmetic? harith] at hcyclic
  -- the check of the catalog does not see which names list variables shadow
  have hrefers : ∀ a b, Refers r.successors a b → Refers r.catalog.dependencies a b := by
    intro a b h
    obtain ⟨w, hw, hb⟩ := refers_successors_iff.mp h
    rw [Refers, Catalog.dependencies, arithmetic?_of_classify hw]
    exact hb
  intro hloop
  rw [Catalog.isCyclic_iff.mpr (TransGen.mono hrefers _ _ hloop)] at hcyclic
  cases hcyclic

/-- What an expansion needs of a set of names: each is an arithmetic variable with a formula, it
refers to the variables at the formula's leaves, which are in the set, and to the ordinary names
there. -/
def IsClosed (r : Resolver) (read : String → Formula) (P : String → Prop) : Prop :=
  ∀ a, P a → ∃ v text, r.classify a = .arithmetic v ∧ v.formula? = some text ∧
    ∀ leaf ∈ (read text).fields,
      (∀ w, r.classify leaf = .arithmetic w → P leaf ∧ Refers r.successors a leaf) ∧
      (Formula.IsOrdinary leaf → Refers r.successors a leaf)

/-- Where the variables rank above those they refer to, expansion ends, and an ordinary name at a
leaf of the result is no arithmetic variable and is one that a chain of references leads to. -/
theorem exists_expandWithin {P : String → Prop} (hP : IsClosed r read P) {rank : String → Nat}
    (hrank : ∀ a, P a → 0 < rank a ∧ ∀ b, Refers r.successors a b → rank b < rank a)
    {fuel : Nat} {active : List String} {name : String} (hname : P name) (hfuel : rank name ≤ fuel)
    (hactive : ∀ a ∈ active, rank name < rank a) :
    ∃ t, r.expandWithin read fuel active name = some t ∧
      ∀ leaf ∈ t.fields, Formula.IsOrdinary leaf →
        (∀ v, r.classify leaf ≠ .arithmetic v) ∧ ReflTransGen (Refers r.successors) name leaf := by
  induction fuel generalizing active name with
  | zero =>
    have := (hrank name hname).1
    omega
  | succ fuel ih =>
    obtain ⟨v, text, hv, htext, hleaves⟩ := hP name hname
    simp only [expandWithin, arithmetic?_of_classify hv, htext, Option.bind_eq_bind,
      Option.bind_some]
    refine ⟨_, rfl, fun leaf hmem hleaf ↦ ?_⟩
    rw [Formula.fields_substitute, List.mem_flatMap] at hmem
    obtain ⟨start, hstart, hmem⟩ := hmem
    obtain ⟨harith, hord⟩ := hleaves start hstart
    cases hc : r.classify start with
    | arithmetic w =>
      obtain ⟨hPstart, href⟩ := harith w hc
      have hlt := (hrank name hname).2 start href
      -- what is being replaced ranks no lower than `name`, so no reference of it is left as it is
      have hnot : start ∉ name :: active := by
        intro h
        rcases List.mem_cons.mp h with rfl | h
        · omega
        · have := hactive start h
          omega
      have hbelow : ∀ a ∈ name :: active, rank start < rank a := by
        intro a ha
        rcases List.mem_cons.mp ha with rfl | ha
        · exact hlt
        · have := hactive a ha
          omega
      obtain ⟨t, ht, hfields⟩ := ih hPstart (by omega) hbelow
      rw [if_neg (by simpa using hnot)] at hmem
      simp only [hc, ht, Option.map_some, Option.getD_some] at hmem
      obtain ⟨hfree, hlead⟩ := hfields leaf hmem hleaf
      exact ⟨hfree, .head href hlead⟩
    | base =>
      simp only [hc, ite_self, Option.map_none, Option.getD_none, List.mem_singleton] at hmem
      subst hmem
      exact ⟨fun v hv ↦ (by rw [hc] at hv; cases hv), .single (hord hleaf)⟩
    | list w op =>
      simp only [hc, ite_self, Option.map_none, Option.getD_none, List.mem_singleton] at hmem
      subst hmem
      exact ⟨fun v hv ↦ (by rw [hc] at hv; cases hv), .single (hord hleaf)⟩

end Resolver

namespace Context

/-- No variable that is inlined for a name is hidden from dependency analysis: it is saved under the
name that it is found by, the limit that is set makes no difference to its plain text, and other
variables name it by an ordinary name. -/
structure InlinesPlainly (ctx : Context) (name : String) : Prop where
  key : ∀ a v, ReflTransGen (ctx.resolver.Inlines ctx.readFormula) name a →
    ctx.resolver.classify a = .arithmetic v → v.key = v.name
  clean : ∀ a v text, ReflTransGen (ctx.resolver.Inlines ctx.readFormula) name a →
    ctx.resolver.classify a = .arithmetic v → v.formula? = some text →
    Formula.cleanWithin ctx.settings.maxParseDepth text.toList =
      Formula.cleanWithin Formula.defaultLimit text.toList
  ordinary : ∀ a, TransGen (ctx.resolver.Inlines ctx.readFormula) name a → Formula.IsOrdinary a

/-- What each variable of a catalog satisfies, those that are inlined satisfy. -/
theorem inlinesPlainly_of_forall {ctx : Context}
    (h : ∀ v ∈ ctx.catalog.arithmetic, v.key = v.name ∧ Formula.IsOrdinary v.key ∧
      ∀ text ∈ v.formula?, Formula.cleanWithin ctx.settings.maxParseDepth text.toList =
        Formula.cleanWithin Formula.defaultLimit text.toList) (name : String) :
    ctx.InlinesPlainly name where
  key _ v _ hv := (h v (Catalog.mem_of_arithmetic? (Resolver.arithmetic?_of_classify hv))).1
  clean _ v text _ hv htext :=
    (h v (Catalog.mem_of_arithmetic? (Resolver.arithmetic?_of_classify hv))).2.2 text htext
  ordinary a ha := by
    obtain ⟨b, -, hb⟩ := TransGen.tail'_iff.mp ha
    obtain ⟨v, hv⟩ := hb.exists_classify
    have hv := Resolver.arithmetic?_of_classify hv
    rw [← Catalog.key_of_arithmetic? hv]
    exact (h v (Catalog.mem_of_arithmetic? hv)).2.1

variable {ctx : Context} {name : String} {v : ArithmeticVariable}

/-- The names of inlined variables are closed in the way that expansion needs. -/
theorem isClosed_of_inlinesPlainly (hvalid : ctx.catalog.validate ctx.schema = .ok ())
    (hname : ctx.resolver.classify name = .arithmetic v) (hplain : ctx.InlinesPlainly name) :
    ctx.resolver.IsClosed ctx.readFormula fun a ↦
      ReflTransGen (ctx.resolver.Inlines ctx.readFormula) name a := by
  intro a ha
  have hvar : ∃ v, ctx.resolver.classify a = .arithmetic v := by
    rcases ReflTransGen.cases_tail ha with heq | ⟨b, -, hb⟩
    · exact ⟨v, heq ▸ hname⟩
    · exact hb.exists_classify
  obtain ⟨v, hv⟩ := hvar
  have hmem := Catalog.mem_of_arithmetic? (Resolver.arithmetic?_of_classify hv)
  have hcheck := (Catalog.validate_eq_ok_iff.mp hvalid).2 v hmem
  rw [Catalog.validateArithmetic] at hcheck
  cases htext : v.formula? with
  | none => simp [htext] at hcheck
  | some text =>
    have hleaf : ∀ leaf ∈ (ctx.readFormula text).fields, Formula.IsOrdinary leaf →
        Refers ctx.resolver.successors a leaf := by
      intro leaf hleaf hord
      rw [readFormula, Settings.readFormula_empty] at hleaf
      refine Resolver.refers_successors_iff.mpr ⟨v, hv, ?_⟩
      rw [ArithmeticVariable.dependencies, htext, Option.map_some, Option.getD_some]
      exact Formula.mem_dependencies_of_mem_fields (hplain.clean a v text ha hv htext) hord hleaf
    refine ⟨v, text, hv, htext, fun leaf hmem ↦ ⟨fun w hw ↦ ?_, hleaf leaf hmem⟩⟩
    have hstep : ctx.resolver.Inlines ctx.readFormula a leaf := ⟨v, text, hv, htext, hmem, w, hw⟩
    exact ⟨ha.tail hstep, hleaf leaf hmem (hplain.ordinary leaf (TransGen.tail' ha hstep))⟩

/-- In a valid catalog, what is inlined for an arithmetic variable is a formula in which every
ordinary name at a leaf is one of the paths and list variables that the variable depends on. -/
theorem dependencies_cover_expansion (hvalid : ctx.catalog.validate ctx.schema = .ok ())
    (hname : ctx.resolver.classify name = .arithmetic v) (hplain : ctx.InlinesPlainly name) :
    ∃ t, ctx.resolver.expand? ctx.readFormula name = some t ∧
      ∀ leaf ∈ t.fields, Formula.IsOrdinary leaf →
        leaf ∈ (ctx.resolver.dependencies name).baseFields ∨
          leaf ∈ (ctx.resolver.dependencies name).listVariables := by
  have hclosed := isClosed_of_inlinesPlainly hvalid hname hplain
  obtain ⟨rank, hle, hpos, hdown⟩ := exists_rank ctx.resolver.successors
    (ctx.catalog.arithmetic.map ArithmeticVariable.key)
  have hrank : ∀ a, ReflTransGen (ctx.resolver.Inlines ctx.readFormula) name a →
      0 < rank a ∧ ∀ b, Refers ctx.resolver.successors a b → rank b < rank a := by
    intro a ha
    obtain ⟨w, _, hw, -⟩ := hclosed a ha
    have hkey := Catalog.mem_keys_of_arithmetic? (Resolver.arithmetic?_of_classify hw)
    exact ⟨hpos a hkey, hdown a hkey
      (Resolver.not_transGen_of_validate hvalid hw (hplain.key a w ha hw))⟩
  have hfuel : rank name ≤ ctx.catalog.arithmetic.length := by
    have := hle name
    rwa [List.length_map] at this
  obtain ⟨t, ht, hleaves⟩ := Resolver.exists_expandWithin hclosed hrank .refl hfuel
    (List.forall_mem_nil _)
  refine ⟨t, ht, fun leaf hmem hleaf ↦ ?_⟩
  obtain ⟨hfree, hlead⟩ := hleaves leaf hmem hleaf
  exact Resolver.mem_dependencies_of_refers hlead hfree

/-- Two colours, the second computed from the first and from a list variable. -/
def colours : Context where
  schema := .empty
  settings := { Settings.default with maxParseDepth := 3, useParseCache := false }
  catalog :=
    { arithmetic := [⟨"gr", "gr = mag_\x7bg\x7d - mag_\x7br\x7d"⟩,
        ⟨"ratio", "ratio = \\frac\x7bgr\x7d\x7b2\x7d + log(faintest)"⟩]
      lists := [⟨"faintest", ⟨"prv", some (.list (.aggregate .max)), some "mag", .literal .null,
        none, none, none⟩⟩] }

/-- The second colour is inlined down to the two magnitudes and the list variable, all of which are
projected. -/
theorem colours_dependencies_cover_expansion :
    (∃ t ∈ colours.resolver.expand? colours.readFormula "ratio",
      t.fields = ["mag_g", "mag_r", "faintest"]) ∧
    ∃ t, colours.resolver.expand? colours.readFormula "ratio" = some t ∧
      ∀ leaf ∈ t.fields, Formula.IsOrdinary leaf →
        leaf ∈ (colours.resolver.dependencies "ratio").baseFields ∨
          leaf ∈ (colours.resolver.dependencies "ratio").listVariables :=
  ⟨by decide +kernel, dependencies_cover_expansion (by rfl) (by rfl)
    (inlinesPlainly_of_forall (by decide +kernel) "ratio")⟩

/-- A field leaf of what is inlined for a name is an identifier that dependency analysis misses. -/
def MissesLeaf (ctx : Context) (name leaf : String) : Prop :=
  (∃ t ∈ ctx.resolver.expand? ctx.readFormula name, leaf ∈ t.fields) ∧
    Formula.isIdentifier leaf.toList = true ∧ isElementPath leaf = false ∧
    leaf ∉ (ctx.resolver.dependencies name).baseFields ∧
    leaf ∉ (ctx.resolver.dependencies name).listVariables

/-- A quotient over quotients, with a quotient in the subscript at the bottom. -/
def tower : Nat → String
  | 0 => "x_\x7bc + \\frac\x7ba\x7d\x7bb\x7d\x7d"
  | n + 1 => "\\frac\x7b" ++ tower n ++ "\x7d\x7b2\x7d"

/-- Variables that dependency analysis cannot see through: formulas with the name of a function, a
word of the notation and a dot at the end of a name, a variable whose name is such a word, two that
refer to each other and whose names have blanks around them, one with the name of a list variable,
and one that nests quotients deeper than dependency analysis follows them. -/
def obscured : Context where
  schema := .empty
  settings := { Settings.default with maxParseDepth := 11, useParseCache := false }
  catalog :=
    { arithmetic := [⟨"a", "a = log + 1"⟩, ⟨"b", "b = times + 1"⟩, ⟨"c", "c = jd. + 1"⟩,
        ⟨"left", "left = jd + 1"⟩, ⟨"d", "d = left * 2"⟩,
        ⟨" p ", "p = q + 1"⟩, ⟨" q ", "q = p * 2"⟩,
        ⟨"low", "low = jd + 1"⟩, ⟨"e", "e = " ++ tower 10⟩]
      lists := [⟨"low", ⟨"prv", some (.list (.aggregate .min)), some "jd", .literal .null,
        none, none, none⟩⟩] }

/-- In a valid catalog there can be leaves that dependency analysis misses. -/
theorem obscured_missesLeaf : obscured.catalog.validate obscured.schema = .ok () ∧
    obscured.MissesLeaf "a" "log" ∧ obscured.MissesLeaf "b" "times" ∧
    obscured.MissesLeaf "c" "jd." ∧ obscured.MissesLeaf "d" "jd" ∧
    obscured.MissesLeaf "p" "p" ∧ obscured.MissesLeaf "low" "jd" ∧
    obscured.MissesLeaf "e" "x_c" := by
  refine ⟨by decide +kernel, ?_, ?_, ?_, ?_, ?_, ?_, ?_⟩
  all_goals simp only [MissesLeaf, Resolver.dependencies, mem_sortedNames]
  all_goals decide +kernel

end Context
end FilterPipeline
