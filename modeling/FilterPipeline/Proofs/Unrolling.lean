import FilterPipeline.Compile.Compiler
import FilterPipeline.Proofs.EnteredDefinitions
import FilterPipeline.Proofs.UsedNames

/-!
# Unrolling definitions

Compiling a condition on a list variable starts over at the stored element predicate of the
variable, and no condition in there is smaller than the one that was left. `Unrolls` holds of what
that recursion yields when nothing bounds it. Main statements: compiling a filter unrolls to
something exactly when no definition that it enters leads back to itself, and the bounded compiler
answers just then, with the same pipeline.
-/

namespace FilterPipeline

open Relation

namespace Resolver

variable (r : Resolver)

/-- The element predicate of the first list variable enters that of the second. -/
abbrev Enters (a b : String) : Prop := Refers r.definitionEntries a b

/-- What a list variable enters is read off its stored condition. -/
theorem definitionEntries_of_list? {name : String} {v : ListVariable}
    (h : r.catalog.list? name = some v) :
    r.definitionEntries name = r.elementEntries (.list v.condition) := by
  simp [definitionEntries, h]

/-- A name whose definition enters something is that of a list variable. -/
theorem list?_of_enters {a b : String} (h : r.Enters a b) :
    ∃ v, r.catalog.list? a = some v := by
  cases hv : r.catalog.list? a with
  | none => simp [Enters, Refers, definitionEntries, hv] at h
  | some v => exact ⟨v, rfl⟩

/-- The definitions entered from some are those that a chain of definitions leads to. -/
theorem mem_entered_iff {names : List String} {b : String} :
    b ∈ r.entered names ↔ ∃ a ∈ names, ReflTransGen r.Enters a b := by
  apply mem_reachable_iff r.listNames
  · intro a b hab
    obtain ⟨v, hv⟩ := r.list?_of_enters hab
    exact r.mem_listNames hv
  · simp [listNames]

/-- A definition enters itself when a chain of definitions leads back to it. -/
theorem entersItself_iff {name : String} :
    r.entersItself name = true ↔ TransGen r.Enters name name := by
  rw [entersItself, List.contains_iff_mem, mem_entered_iff, TransGen.head'_iff]
  rfl

/-- Whether some definition leads back to itself is seen from those of the catalog. -/
theorem acyclic_iff : (∀ name, ¬ TransGen r.Enters name name) ↔
    ∀ name ∈ r.listNames, r.entersItself name = false := by
  simp only [← r.entersItself_iff, Bool.not_eq_true]
  constructor
  · exact fun h name _ ↦ h name
  · intro h name
    by_cases hn : name ∈ r.listNames
    · exact h name hn
    · rw [Bool.eq_false_iff, ne_eq, entersItself_iff]
      intro hcycle
      obtain ⟨b, hb, -⟩ := TransGen.head'_iff.mp hcycle
      obtain ⟨v, hv⟩ := r.list?_of_enters hb
      exact hn (r.mem_listNames hv)

/-- The definitions that compiling a filter with some usage enters at first. -/
def filterEntries (blocks : List Block) (usage : Usage) : List String :=
  blocks.flatMap r.blockEntries ++ r.projectedEntries usage.listVariables

/-- A filter is circular when it enters some definition that leads back to itself. -/
theorem isCircular_eq_false_iff {blocks : List Block} {usage : Usage} :
    r.isCircular blocks usage = false ↔ ∀ a ∈ r.filterEntries blocks usage, ∀ name,
      ReflTransGen r.Enters a name → ¬ TransGen r.Enters name name := by
  have h : r.isCircular blocks usage = true ↔ ∃ a ∈ r.filterEntries blocks usage, ∃ name,
      ReflTransGen r.Enters a name ∧ TransGen r.Enters name name := by
    simp only [isCircular, List.any_eq_true, mem_entered_iff, entersItself_iff]
    constructor
    · rintro ⟨name, ⟨a, ha, hab⟩, hc⟩
      exact ⟨a, ha, name, hab, hc⟩
    · rintro ⟨a, ha, name, hab, hc⟩
      exact ⟨name, ⟨a, ha, hab⟩, hc⟩
  rw [← Bool.not_eq_true, h]
  push Not
  rfl

end Resolver

namespace Generator

/-- The element predicate of a list variable is compiled to `e`, by way of the definitions that it
enters: the calls of the recursion form a finite tree. -/
inductive Unrolls (g : Generator) : ListVariable → Option Json → Prop
  | intro (v : ListVariable) (d : ListVariable → Option Json)
      (entered : ∀ name ∈ g.resolver.elementEntries (.list v.condition), ∀ w,
        g.resolver.catalog.list? name = some w → Unrolls g w (d w)) :
      Unrolls g v ({ g with definition := d }.elementExpr .document "" (.list v.condition))

variable {g : Generator}

private theorem Unrolls.unique {v : ListVariable} {e : Option Json} (h : g.Unrolls v e) :
    ∀ {e' : Option Json}, g.Unrolls v e' → e = e' := by
  induction h with
  | intro v d _ ih =>
    intro e' h'
    obtain ⟨_, d', hd'⟩ := h'
    apply elementExpr_congr
    intro name hn w hw
    exact ih name hn w hw (hd' name hn w hw)

private theorem Unrolls.acc {v : ListVariable} {e : Option Json} (h : g.Unrolls v e) {name : String}
    (hv : g.resolver.catalog.list? name = some v) :
    Acc (fun b a ↦ g.resolver.Enters a b) name := by
  induction h generalizing name with
  | intro v d _ ih =>
    refine Acc.intro name fun b hb ↦ ?_
    rw [Resolver.Enters, Refers, Resolver.definitionEntries_of_list? _ hv] at hb
    cases hw : g.resolver.catalog.list? b with
    | some w => exact ih b hb w hw hw
    | none =>
      refine Acc.intro b fun c hc ↦ ?_
      obtain ⟨w, hw'⟩ := g.resolver.list?_of_enters hc
      rw [hw] at hw'
      cases hw'

private theorem unrolls_definitionAt {name : String} {v : ListVariable}
    (hv : g.resolver.catalog.list? name = some v)
    (hac : ∀ b, ReflTransGen g.resolver.Enters name b → ¬ TransGen g.resolver.Enters b b) :
    g.Unrolls v (g.definitionAt g.resolver.catalog.lists.length v) := by
  obtain ⟨rank, hbound, hpos, hrank⟩ :=
    exists_rank g.resolver.definitionEntries g.resolver.listNames
  have hlevels : rank name ≤ g.resolver.catalog.lists.length := by
    simpa [Resolver.listNames] using hbound name
  generalize g.resolver.catalog.lists.length = levels at hlevels ⊢
  induction levels generalizing name v with
  | zero =>
    have := hpos name (g.resolver.mem_listNames hv)
    omega
  | succ levels ih =>
    refine Unrolls.intro v _ fun b hb w hw ↦ ?_
    have hab : g.resolver.Enters name b := by
      rwa [Resolver.Enters, Refers, Resolver.definitionEntries_of_list? _ hv]
    have hlt := hrank name (g.resolver.mem_listNames hv) (hac name .refl) b hab
    apply ih hw
    · exact fun c hbc ↦ hac c (.head hab hbc)
    · omega

/-- The pipeline of a filter with some usage. -/
def pipeline (g : Generator) (always : List String) (usage : Usage) (blocks : List Block) :
    Pipeline :=
  let p := g.projection always usage
  let nonempty (members : Members) : Option Members :=
    if members.isEmpty then none else some members
  { projection := nonempty p.members
    filter := nonempty ((blocks.filterMap (g.blockQuery p)).foldl mergeRoot []) }

end Generator

namespace Resolver

variable (r : Resolver)

mutual

private theorem blockEntries_subset_of_negated : (b : Block) → ∀ n ∈ b.negatedBlocks,
    r.blockEntries n ⊆ r.blockEntries b
  | ⟨id, logic, children, name, mustHold⟩, n, hn => by
    simp only [Block.negatedBlocks] at hn
    split at hn
    · rw [List.mem_singleton.mp hn]
      exact List.Subset.refl _
    · exact nodeEntries_subset_of_negated children n hn

private theorem nodeEntries_subset_of_negated :
    (nodes : List Node) → ∀ n ∈ Node.negatedBlocks nodes,
    r.blockEntries n ⊆ r.nodeEntries nodes
  | [], n, hn => by cases hn
  | .block b :: rest, n, hn => by
    simp only [nodeEntries]
    rcases List.mem_append.mp hn with h | h
    · exact List.subset_append_of_subset_left _ (blockEntries_subset_of_negated b n h)
    · exact List.subset_append_of_subset_right _ (nodeEntries_subset_of_negated rest n h)
  | .condition ⟨_, _, _, _, _⟩ :: rest, n, hn => by
    simp only [nodeEntries]
    exact List.subset_append_of_subset_right _ (nodeEntries_subset_of_negated rest n hn)

end

end Resolver

namespace Context

variable (ctx : Context)

/-- The generator of a context before any list variable is written out. -/
def base : Generator where
  resolver := ctx.resolver
  regexOptions := ctx.settings.regexOptions
  readFormula := ctx.readFormula
  definition := fun _ ↦ none

/-- The definitions that compiling a filter enters at first. -/
def entries (blocks : List Block) : List String :=
  ctx.resolver.filterEntries blocks (ctx.usage blocks)

/-- The pipeline of a filter whose list variables are written out in some way. -/
def pipelineWith (blocks : List Block) (d : ListVariable → Option Json) : Pipeline :=
  { ctx.base with definition := d }.pipeline ctx.settings.alwaysProject (ctx.usage blocks) blocks

/-- Compiling a filter without a bound on the recursion ends, with a pipeline. -/
def Unrolls (blocks : List Block) (p : Pipeline) : Prop :=
  ∃ d : ListVariable → Option Json,
    (∀ name ∈ ctx.entries blocks, ∀ v, ctx.catalog.list? name = some v →
      ctx.base.Unrolls v (d v)) ∧
    p = ctx.pipelineWith blocks d

/-- What the bounded compiler answers. -/
theorem compile?_eq (blocks : List Block) :
    ctx.compile? blocks = if ctx.resolver.isCircular blocks (ctx.usage blocks) then none
      else some (ctx.pipelineWith blocks (ctx.base.definitionAt ctx.catalog.lists.length)) := rfl

/-- Where no definition leads back to itself, a filter is compiled to a pipeline. Its stages are the
projection and the match of the filter, and an empty one is left out. -/
theorem exists_compile?_eq (hacyclic : ∀ name, ¬ TransGen ctx.resolver.Enters name name)
    (blocks : List Block) :
    ∃ pipeline, ctx.compile? blocks = some pipeline ∧
      pipeline.projection.getD [] = (ctx.projection blocks).members ∧
      pipeline.filter.getD [] = ctx.filterMembers blocks ∧
      pipeline.projection ≠ some [] ∧ pipeline.filter ≠ some [] := by
  have hcircular : ctx.resolver.isCircular blocks (ctx.usage blocks) = false :=
    ctx.resolver.isCircular_eq_false_iff.mpr fun _ _ name _ ↦ hacyclic name
  refine ⟨_, by rw [compile?, hcircular]; rfl, ?_⟩
  cases (ctx.projection blocks).members <;> cases ctx.filterMembers blocks <;> simp

private theorem pipelineWith_congr {blocks : List Block} {d d' : ListVariable → Option Json}
    (h : AgreeOn ctx.catalog (ctx.entries blocks) d d') :
    ctx.pipelineWith blocks d = ctx.pipelineWith blocks d' := by
  have hblock : ∀ b ∈ blocks, AgreeOn ctx.catalog (ctx.resolver.blockEntries b) d d' := by
    intro b hb
    exact h.left.mono fun x hx ↦ List.mem_flatMap.mpr ⟨b, hb, hx⟩
  have hprojection : { ctx.base with definition := d }.projection ctx.settings.alwaysProject
        (ctx.usage blocks) =
      { ctx.base with definition := d' }.projection ctx.settings.alwaysProject
        (ctx.usage blocks) := by
    apply Generator.projection_congr ctx.base _ _ h.right
    intro p hp
    obtain ⟨b, hb, hn⟩ := List.mem_flatMap.mp (Usage.mem_negatedBlocks hp)
    exact (hblock b hb).mono (Resolver.blockEntries_subset_of_negated _ b p.2 hn)
  have hqueries : ∀ p : Projection,
      blocks.filterMap ({ ctx.base with definition := d }.blockQuery p) =
        blocks.filterMap ({ ctx.base with definition := d' }.blockQuery p) := by
    intro p
    apply List.filterMap_congr
    intro b hb
    exact Generator.blockQuery_congr ctx.base p b (hblock b hb)
  simp only [pipelineWith, Generator.pipeline, hprojection, hqueries]

/-- A filter unrolls to one pipeline at most. -/
theorem Unrolls.unique {blocks : List Block} {p p' : Pipeline} (h : ctx.Unrolls blocks p)
    (h' : ctx.Unrolls blocks p') : p = p' := by
  obtain ⟨d, hd, rfl⟩ := h
  obtain ⟨d', hd', rfl⟩ := h'
  apply ctx.pipelineWith_congr
  intro name hn v hv
  exact (hd name hn v hv).unique (hd' name hn v hv)

/-- A filter that enters no circular definition unrolls to what the bounded compiler answers. -/
theorem unrolls_of_acyclic {blocks : List Block}
    (h : ctx.resolver.isCircular blocks (ctx.usage blocks) = false) :
    ctx.Unrolls blocks
      (ctx.pipelineWith blocks (ctx.base.definitionAt ctx.catalog.lists.length)) := by
  refine ⟨_, fun name hn v hv ↦ ?_, rfl⟩
  exact Generator.unrolls_definitionAt hv (ctx.resolver.isCircular_eq_false_iff.mp h name hn)

/-- A filter that unrolls enters no circular definition. -/
theorem Unrolls.acyclic {blocks : List Block} {p : Pipeline} (h : ctx.Unrolls blocks p) :
    ctx.resolver.isCircular blocks (ctx.usage blocks) = false := by
  obtain ⟨d, hd, -⟩ := h
  rw [Resolver.isCircular_eq_false_iff]
  intro a ha name hab hcycle
  cases hv : ctx.catalog.list? a with
  | some v => exact not_transGen_of_acc ((hd a ha v hv).acc hv) hab hcycle
  | none =>
    have hnone : ∀ b, ¬ ctx.resolver.Enters a b := by
      intro b hb
      obtain ⟨v, hv'⟩ := ctx.resolver.list?_of_enters hb
      rw [show ctx.resolver.catalog.list? a = none from hv] at hv'
      cases hv'
    cases ReflTransGen.cases_head hab with
    | inl he =>
      subst he
      obtain ⟨c, hac, -⟩ := TransGen.head'_iff.mp hcycle
      exact hnone c hac
    | inr hc =>
      obtain ⟨c, hac, -⟩ := hc
      exact hnone c hac

/-- Compiling a filter ends exactly when no definition that it enters leads back to itself, and the
bounded compiler answers exactly what compiling without a bound ends with. -/
theorem unrolls_iff_acyclic (blocks : List Block) :
    ((∃ p, ctx.Unrolls blocks p) ↔ ∀ a ∈ ctx.entries blocks, ∀ name,
      ReflTransGen ctx.resolver.Enters a name → ¬ TransGen ctx.resolver.Enters name name) ∧
    ∀ p, ctx.compile? blocks = some p ↔ ctx.Unrolls blocks p := by
  rw [entries, ← Resolver.isCircular_eq_false_iff]
  constructor
  · constructor
    · rintro ⟨p, hp⟩
      exact hp.acyclic
    · intro h
      exact ⟨_, ctx.unrolls_of_acyclic h⟩
  · intro p
    rw [compile?_eq]
    constructor
    · intro h
      split at h
      · cases h
      · next hc =>
        cases h
        exact ctx.unrolls_of_acyclic (by simpa using hc)
    · intro h
      rw [if_neg (by simp [h.acyclic]), Option.some_inj]
      exact (ctx.unrolls_of_acyclic h.acyclic).unique ctx h

/-- A filter, or an element predicate, that asks whether the list variable `loop` holds. -/
def asksLoop : Block where
  id := "root"
  logic := .and
  children := [.condition ⟨"c", some "loop", some (.compare .eq), .literal (.bool true), none⟩]
  name := none
  mustHold := true

/-- A context with an array `prv` of records, and with a list variable `loop` that holds when `loop`
holds of some element. -/
def looping : Context where
  schema := .ofFields
    [⟨"prv", .node ⟨"array", none, none,
      some (.node ⟨"record", some "P", some [⟨"jd", .named "double", none⟩], none⟩)⟩, none⟩]
  catalog := ⟨[],
    [⟨"loop", ⟨"prv", some (.list (.quantifier .any)), none, .nested asksLoop, none, none, none⟩⟩]⟩
  settings := .default

/-- The catalog with `loop` is valid, and compiling a filter that names `loop` does not end. -/
theorem not_unrolls_looping :
    looping.catalog.validate looping.schema = .ok () ∧
      looping.compile? [asksLoop] = none ∧ ¬ ∃ p, looping.Unrolls [asksLoop] p := by
  have hcircular : looping.resolver.isCircular [asksLoop] (looping.usage [asksLoop]) = true := by
    decide +kernel
  refine ⟨rfl, ?_, fun ⟨p, hp⟩ ↦ ?_⟩
  · rw [compile?_eq, if_pos hcircular]
  · have hacyclic := hp.acyclic
    rw [hcircular] at hacyclic
    cases hacyclic

end Context
end FilterPipeline
