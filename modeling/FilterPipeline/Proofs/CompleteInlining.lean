import FilterPipeline.Proofs.Inlining

/-!
# Where inlining is complete

A formula is inlined variable by variable, and a variable that is being inlined already stays a
field. Main statement: in a valid catalog every arithmetic variable is inlined, and what comes out
names no arithmetic variable any more exactly when no variable on the way leads back to itself. The
check of the catalog sees such a circle where it sees the names at the leaves of formulas.
-/

namespace FilterPipeline

open Relation

namespace Resolver

/-- The arithmetic variable found under the first name has a formula with a leaf that names an
arithmetic variable, by the second name. Whether a list variable hides the first name makes no
difference. -/
def Mentions (r : Resolver) (read : String → Formula) (a b : String) : Prop :=
  ∃ v text, r.catalog.arithmetic? a = some v ∧ v.formula? = some text ∧ b ∈ (read text).fields ∧
    ∃ w, r.classify b = .arithmetic w

variable {r : Resolver} {read : String → Formula} {fuel : Nat} {active : List String}
  {name : String} {t : Formula}

private theorem exists_classify_of_transGen {a b : String} (h : TransGen (r.Mentions read) a b) :
    ∃ w, r.classify b = .arithmetic w := by
  obtain ⟨_, -, _, _, -, -, -, hw⟩ := TransGen.tail'_iff.mp h
  exact hw

/-- A leaf of an expansion is a leaf of the formula itself that is no arithmetic variable or is
being expanded already, or it is a leaf of the expansion of a leaf. -/
theorem mem_fields_expandWithin {v : ArithmeticVariable} {text : String}
    (hv : r.catalog.arithmetic? name = some v) (htext : v.formula? = some text)
    (ht : r.expandWithin read (fuel + 1) active name = some t) (leaf : String) :
    leaf ∈ t.fields ↔ ∃ b ∈ (read text).fields,
      (b ∈ name :: active ∨ ¬ ∃ w, r.classify b = .arithmetic w) ∧ leaf = b ∨
      (b ∉ name :: active ∧ ∃ w, r.classify b = .arithmetic w) ∧
        leaf ∈ ((r.expandWithin read fuel (name :: active) b).map Formula.fields).getD [b] := by
  simp only [expandWithin, hv, htext, Option.bind_eq_bind, Option.bind_some,
    Option.some.injEq] at ht
  rw [← ht, Formula.fields_substitute, List.mem_flatMap]
  refine exists_congr fun b ↦ and_congr_right fun _ ↦ ?_
  by_cases hb : b ∈ name :: active
  · rw [if_pos (by simpa using hb)]
    simp [hb]
  · rw [if_neg (by simpa using hb)]
    cases r.classify b <;> simp [hb]

/-- The leaves of an expansion are leaves of the formulas of variables. -/
theorem exists_formula_of_mem_expandWithin {leaf : String}
    (ht : r.expandWithin read fuel active name = some t) (hleaf : leaf ∈ t.fields) :
    ∃ v ∈ r.catalog.arithmetic, ∃ text ∈ v.formula?, leaf ∈ (read text).fields := by
  induction fuel generalizing active name t with
  | zero => cases ht
  | succ fuel ih =>
    obtain ⟨v, text, hv, htext⟩ : ∃ v text, r.catalog.arithmetic? name = some v ∧
        v.formula? = some text := by
      simp only [expandWithin, Option.bind_eq_bind, Option.bind_eq_some_iff] at ht
      obtain ⟨v, hv, text, htext, -⟩ := ht
      exact ⟨v, text, hv, htext⟩
    have hstored : ∀ b ∈ (read text).fields,
        ∃ v ∈ r.catalog.arithmetic, ∃ text ∈ v.formula?, b ∈ (read text).fields :=
      fun b hb ↦ ⟨v, Catalog.mem_of_arithmetic? hv, text, htext, hb⟩
    obtain ⟨b, hb, ⟨-, rfl⟩ | ⟨-, hleaf⟩⟩ := (mem_fields_expandWithin hv htext ht leaf).mp hleaf
    · exact hstored leaf hb
    · cases hexpand : r.expandWithin read fuel (name :: active) b with
      | none =>
        rw [hexpand] at hleaf
        rw [List.mem_singleton.mp hleaf]
        exact hstored b hb
      | some t' =>
        rw [hexpand, Option.map_some, Option.getD_some] at hleaf
        exact ih hexpand hleaf

/-- Where every variable has a formula, expansion ends, and an arithmetic variable that is left at a
leaf leads back to itself. The variables being expanded lead to the one whose turn it is, and there
is fuel for all others. -/
theorem exists_expandWithin_of_formulas
    (hformulas : ∀ v ∈ r.catalog.arithmetic, ∃ text, v.formula? = some text)
    {v : ArithmeticVariable} (hv : r.catalog.arithmetic? name = some v)
    (hnodup : (name :: active).Nodup)
    (hkeys : ∀ a ∈ active, a ∈ r.catalog.arithmetic.map ArithmeticVariable.key)
    (hfuel : r.catalog.arithmetic.length ≤ fuel + active.length)
    (hactive : ∀ a ∈ active, TransGen (r.Mentions read) a name) :
    ∃ t, r.expandWithin read fuel active name = some t ∧
      ∀ leaf ∈ t.fields, (∃ w, r.classify leaf = .arithmetic w) →
        ReflTransGen (r.Mentions read) name leaf ∧ TransGen (r.Mentions read) leaf leaf := by
  induction fuel generalizing active name v with
  | zero =>
    have hsub : name :: active ⊆ r.catalog.arithmetic.map ArithmeticVariable.key :=
      List.cons_subset.mpr ⟨Catalog.mem_keys_of_arithmetic? hv, hkeys⟩
    have hlength := (List.subperm_of_subset hnodup hsub).length_le
    rw [List.length_cons, List.length_map] at hlength
    omega
  | succ fuel ih =>
    obtain ⟨text, htext⟩ := hformulas v (Catalog.mem_of_arithmetic? hv)
    have hsome : ∃ t, r.expandWithin read (fuel + 1) active name = some t := by
      simp [expandWithin, hv, htext]
    obtain ⟨t, ht⟩ := hsome
    refine ⟨t, ht, fun leaf hleaf hw ↦ ?_⟩
    obtain ⟨b, hb, hleaf⟩ := (mem_fields_expandWithin hv htext ht leaf).mp hleaf
    rcases hleaf with ⟨hold, rfl⟩ | ⟨⟨hnotin, u, hu⟩, hleaf⟩
    · have hstep : r.Mentions read name leaf := ⟨v, text, hv, htext, hb, hw⟩
      refine ⟨.single hstep, ?_⟩
      rcases List.mem_cons.mp (hold.resolve_right (not_not_intro hw)) with rfl | hmem
      · exact .single hstep
      · exact (hactive leaf hmem).tail hstep
    · have hstep : r.Mentions read name b := ⟨v, text, hv, htext, hb, u, hu⟩
      obtain ⟨t', ht', hleaves⟩ := ih (arithmetic?_of_classify hu)
        (List.nodup_cons.mpr ⟨hnotin, hnodup⟩)
        (List.forall_mem_cons.mpr ⟨Catalog.mem_keys_of_arithmetic? hv, hkeys⟩)
        (by rw [List.length_cons]; omega)
        (List.forall_mem_cons.mpr ⟨.single hstep, fun a ha ↦ (hactive a ha).tail hstep⟩)
      rw [ht', Option.map_some, Option.getD_some] at hleaf
      obtain ⟨hreach, hloop⟩ := hleaves leaf hleaf hw
      exact ⟨.head hstep hreach, hloop⟩

/-- Where an expansion names no arithmetic variable, every chain of variables from there ends. -/
theorem acc_of_expandWithin (ht : r.expandWithin read fuel active name = some t)
    (hplain : ∀ leaf ∈ t.fields, ¬ ∃ w, r.classify leaf = .arithmetic w) :
    Acc (fun b a ↦ r.Mentions read a b) name := by
  induction fuel generalizing active name t with
  | zero => cases ht
  | succ fuel ih =>
    refine Acc.intro name fun b hb ↦ ?_
    obtain ⟨v, text, hv, htext, hb, hw⟩ := hb
    have hmem := mem_fields_expandWithin hv htext ht
    have hnew : b ∉ name :: active :=
      fun hold ↦ hplain b ((hmem b).mpr ⟨b, hb, .inl ⟨.inl hold, rfl⟩⟩) hw
    cases hexpand : r.expandWithin read fuel (name :: active) b with
    | none =>
      refine absurd hw (hplain b ((hmem b).mpr ⟨b, hb, .inr ⟨⟨hnew, hw⟩, ?_⟩⟩))
      rw [hexpand]
      exact List.mem_singleton_self b
    | some t' =>
      refine ih hexpand fun leaf hleaf ↦
        hplain leaf ((hmem leaf).mpr ⟨b, hb, .inr ⟨⟨hnew, hw⟩, ?_⟩⟩)
      rwa [hexpand, Option.map_some, Option.getD_some]

end Resolver

namespace Context

variable {ctx : Context} {name : String} {v : ArithmeticVariable}

/-- In a valid catalog every variable has a formula. -/
theorem exists_formula_of_validate (hvalid : ctx.catalog.validate ctx.schema = .ok ()) :
    ∀ v ∈ ctx.catalog.arithmetic, ∃ text, v.formula? = some text := by
  intro v hv
  have hcheck := (Catalog.validate_eq_ok_iff.mp hvalid).2 v hv
  rw [Catalog.validateArithmetic] at hcheck
  cases htext : v.formula? with
  | none => simp [htext] at hcheck
  | some text => exact ⟨text, rfl⟩

/-- In a valid catalog no variable leads back to itself along names that the check sees. -/
theorem not_transGen_mentions_of_plainly (hvalid : ctx.catalog.validate ctx.schema = .ok ())
    (hplain : ctx.InlinesPlainly name) :
    ¬ TransGen (ctx.resolver.Mentions ctx.readFormula) name name := by
  intro hloop
  obtain ⟨v, hv⟩ := Resolver.exists_classify_of_transGen hloop
  have hclosed := isClosed_of_inlinesPlainly hvalid hv hplain
  have hrefers : ∀ {a}, TransGen (ctx.resolver.Mentions ctx.readFormula) name a →
      ReflTransGen (ctx.resolver.Inlines ctx.readFormula) name a ∧
        TransGen (Refers ctx.resolver.successors) name a := by
    have hstep : ∀ {a b}, ReflTransGen (ctx.resolver.Inlines ctx.readFormula) name a →
        ctx.resolver.Mentions ctx.readFormula a b →
        ReflTransGen (ctx.resolver.Inlines ctx.readFormula) name b ∧
          Refers ctx.resolver.successors a b := by
      rintro a b ha ⟨u, text, hu, htext, hb, w, hw⟩
      obtain ⟨u', text', hu', htext', hleaves⟩ := hclosed a ha
      obtain rfl : u' = u :=
        Option.some.inj ((Resolver.arithmetic?_of_classify hu').symm.trans hu)
      obtain rfl : text' = text := Option.some.inj (htext'.symm.trans htext)
      exact (hleaves b hb).1 w hw
    intro a ha
    induction ha with
    | single h => exact ⟨(hstep .refl h).1, .single (hstep .refl h).2⟩
    | tail _ h ih => exact ⟨(hstep ih.1 h).1, ih.2.tail (hstep ih.1 h).2⟩
  exact Resolver.not_transGen_of_validate hvalid hv (hplain.key name v .refl hv) (hrefers hloop).2

/-- In a valid catalog every arithmetic variable is inlined. What comes out names no arithmetic
variable exactly when none that is inlined leads back to itself, and so it is where the names and
formulas of the variables on the way do not hide them from the check. -/
theorem expansion_complete_iff (hvalid : ctx.catalog.validate ctx.schema = .ok ())
    (hname : ctx.catalog.arithmetic? name = some v) :
    ∃ t, ctx.resolver.expand? ctx.readFormula name = some t ∧
      ((∀ leaf ∈ t.fields, ¬ ∃ w, ctx.resolver.classify leaf = .arithmetic w) ↔
        ∀ a, ReflTransGen (ctx.resolver.Mentions ctx.readFormula) name a →
          ¬ TransGen (ctx.resolver.Mentions ctx.readFormula) a a) ∧
      ((∀ a, TransGen (ctx.resolver.Mentions ctx.readFormula) name a → ctx.InlinesPlainly a) →
        ∀ leaf ∈ t.fields, ¬ ∃ w, ctx.resolver.classify leaf = .arithmetic w) := by
  obtain ⟨t, ht, hleaves⟩ : ∃ t, ctx.resolver.expand? ctx.readFormula name = some t ∧
      ∀ leaf ∈ t.fields, (∃ w, ctx.resolver.classify leaf = .arithmetic w) →
        ReflTransGen (ctx.resolver.Mentions ctx.readFormula) name leaf ∧
          TransGen (ctx.resolver.Mentions ctx.readFormula) leaf leaf :=
    Resolver.exists_expandWithin_of_formulas (exists_formula_of_validate hvalid) hname
      (List.nodup_singleton name) (List.forall_mem_nil _) le_rfl (List.forall_mem_nil _)
  refine ⟨t, ht, ⟨fun h a ha ↦ ?_, fun h leaf hleaf hw ↦ ?_⟩, fun h leaf hleaf hw ↦ ?_⟩
  · exact not_transGen_of_acc (Resolver.acc_of_expandWithin ht h) ha
  · obtain ⟨hreach, hloop⟩ := hleaves leaf hleaf hw
    exact h leaf hreach hloop
  · obtain ⟨hreach, hloop⟩ := hleaves leaf hleaf hw
    exact not_transGen_mentions_of_plainly hvalid (h leaf (.trans_right hreach hloop)) hloop

/-- What is inlined for the second colour names no arithmetic variable. -/
theorem colours_expansion_complete :
    colours.catalog.validate colours.schema = .ok () ∧
      colours.catalog.arithmetic? "ratio" =
        some ⟨"ratio", "ratio = \\frac\x7bgr\x7d\x7b2\x7d + log(faintest)"⟩ ∧
      ∃ t, colours.resolver.expand? colours.readFormula "ratio" = some t ∧
        ∀ leaf ∈ t.fields, ¬ ∃ w, colours.resolver.classify leaf = .arithmetic w := by
  have hvalid : colours.catalog.validate colours.schema = .ok () := by rfl
  have hname : colours.catalog.arithmetic? "ratio" =
      some ⟨"ratio", "ratio = \\frac\x7bgr\x7d\x7b2\x7d + log(faintest)"⟩ := by rfl
  obtain ⟨t, ht, -, hplain⟩ := expansion_complete_iff hvalid hname
  exact ⟨hvalid, hname, t, ht,
    hplain fun a _ ↦ inlinesPlainly_of_forall (by decide +kernel) a⟩

/-- Two variables that refer to each other, with blanks around their names. -/
def entangled : Context where
  schema := .empty
  settings := .default
  catalog := ⟨[⟨" p ", "p = q + 1"⟩, ⟨" q ", "q = p * 2"⟩], []⟩

/-- The check of a catalog does not see a circle of variables whose names have blanks around them:
what is inlined for one of them still names it. -/
theorem entangled_not_complete : entangled.catalog.validate entangled.schema = .ok () ∧
    (∃ t ∈ entangled.resolver.expand? entangled.readFormula "p", "p" ∈ t.fields) ∧
    ∃ w, entangled.resolver.classify "p" = .arithmetic w := by
  have hread : entangled.readFormula = Formula.parseWithin Formula.defaultLimit :=
    funext (Settings.readFormula_empty _)
  refine ⟨by decide +kernel, ?_, _, rfl⟩
  rw [hread]
  decide +kernel

end Context
end FilterPipeline
