import FilterPipeline.Proofs.Contributing
import FilterPipeline.Proofs.ProjectionNames

/-!
# Both stages agree on negated blocks

The projection computes a field for a negated named block, and the match asks that the field be
false. Main statement: where definitions are not circular, the match refers to a block exactly when
the block is compiled to something, by a name that only equal blocks share; and the field of that
name is computed by the first equal block. That is as good as the block itself just when equal
blocks are compiled alike, which the signs of zeros can prevent.
-/

namespace FilterPipeline

open Relation

namespace Block

/-- A negated named block asks for a name. -/
theorem exists_materializedName {b : Block} (h : b.isNegatedNamed = true) :
    ∃ name, b.materializedName? = some name := by
  have hnamed : b.isNamed = true := (Bool.and_eq_true_iff.mp h).2
  cases hn : b.name with
  | none => simp [isNamed, hn] at hnamed
  | some s => exact ⟨sanitizeName s, by simp [materializedName?, hnamed, hn]⟩

end Block

mutual

private theorem Block.isNegatedNamed_of_mem {a : Block} : (b : Block) → a ∈ b.negatedBlocks →
    a.isNegatedNamed = true
  | ⟨_, _, children, _, _⟩, h => by
    rw [Block.negatedBlocks] at h
    split at h
    · next hneg => rwa [List.mem_singleton.mp h]
    · exact Node.isNegatedNamed_of_mem children h

private theorem Node.isNegatedNamed_of_mem {a : Block} : (nodes : List Node) →
    a ∈ Node.negatedBlocks nodes → a.isNegatedNamed = true
  | [], h => by cases h
  | .block b :: rest, h => by
    rcases List.mem_append.mp h with h | h
    · exact Block.isNegatedNamed_of_mem b h
    · exact Node.isNegatedNamed_of_mem rest h
  | .condition _ :: rest, h => Node.isNegatedNamed_of_mem rest h

end

/-- Blocks with finite numbers that are equal equal the same blocks. -/
theorem Block.same_congr {a b c : Block} (ha : a.IsFinite) (hb : b.IsFinite)
    (hab : a.same b = true) : a.same c = b.same c := by
  rw [Bool.eq_iff_iff, same_iff a c ha, same_iff b c hb, (same_iff a b ha).mp hab]

namespace Usage

private theorem find?_foldl_register {b : Block} {todo : List Block} {done : List (String × Block)}
    (hnamed : ∀ a ∈ todo, a.isNegatedNamed = true) (htodo : ∀ a ∈ todo, a.IsFinite)
    (hdone : ∀ n ∈ done, n.2.IsFinite) :
    ((todo.foldl register done).find? (·.2.same b)).map (·.2) =
      (done.map (·.2) ++ todo).find? (·.same b) := by
  induction todo generalizing done with
  | nil =>
    rw [List.foldl_nil, List.append_nil, List.find?_map]
    rfl
  | cons a todo ih =>
    rw [List.forall_mem_cons] at hnamed htodo
    obtain ⟨name, hname⟩ := Block.exists_materializedName hnamed.1
    rw [List.foldl_cons]
    by_cases hreg : done.any (·.2.same a) = true
    · have hskip : register done a = done := by simp [register, hname, hreg]
      rw [hskip, ih hnamed.2 htodo.2 hdone, List.find?_append, List.find?_append]
      -- where `a` would be found, the equal block before it is
      by_cases hab : a.same b = true
      · obtain ⟨n, hn, hna⟩ := List.any_eq_true.mp hreg
        have hfound : ((done.map (·.2)).find? (·.same b)).isSome = true := by
          rw [List.find?_isSome]
          refine ⟨n.2, List.mem_map_of_mem hn, ?_⟩
          rwa [Block.same_congr (hdone n hn) htodo.1 hna]
        obtain ⟨c, hc⟩ := Option.isSome_iff_exists.mp hfound
        rw [hc, Option.some_or, Option.some_or]
      · simp [hab]
    · have hadd : register done a = done ++ [(freeName (done.map (·.1)) name a.id, a)] := by
        simp [register, hname, hreg]
      rw [hadd, ih hnamed.2 htodo.2]
      · simp
      · intro n hn
        rcases List.mem_append.mp hn with hn | hn
        · exact hdone n hn
        · rw [List.mem_singleton.mp hn]
          exact htodo.1

end Usage

namespace Context

/-- The match of a filter asks, for a block, that the field of some name be false. -/
def RefersTo (ctx : Context) (blocks : List Block) (b : Block) (name : String) : Prop :=
  ctx.generator.blockQuery (ctx.projection blocks) b = some (.single name (.bool false))

/-- The first of the negated named blocks of a filter that equals one. -/
def firstSame? (blocks : List Block) (b : Block) : Option Block :=
  (blocks.flatMap Block.negatedBlocks).find? (·.same b)

variable {ctx : Context} {blocks : List Block} {b : Block}

/-- What is collected from a filter as a negated named block is one. -/
theorem isNegatedNamed_of_mem (hb : b ∈ blocks.flatMap Block.negatedBlocks) :
    b.isNegatedNamed = true := by
  obtain ⟨root, -, hb⟩ := List.mem_flatMap.mp hb
  exact Block.isNegatedNamed_of_mem root hb

/-- A negated named block is referred to by the name of the field that is computed for an equal
block, if there is one. -/
theorem blockQuery_eq (hb : b ∈ blocks.flatMap Block.negatedBlocks) :
    ctx.generator.blockQuery (ctx.projection blocks) b =
      ((ctx.projection blocks).blocks.find? (·.2.same b)).map fun n ↦
        .single n.1 (.bool false) :=
  ctx.generator.blockQuery_of_negated _ (isNegatedNamed_of_mem hb)

/-- The field that the match refers to is one that the projection computes for an equal block. -/
theorem refersTo_iff {name : String} (hb : b ∈ blocks.flatMap Block.negatedBlocks) :
    ctx.RefersTo blocks b name ↔
      ∃ n, (ctx.projection blocks).blocks.find? (·.2.same b) = some n ∧ n.1 = name := by
  rw [RefersTo, blockQuery_eq hb, Option.map_eq_some_iff]
  simp [Json.single]

/-- A negated block that the projection computes is one that the filter uses. -/
theorem mem_negatedBlocks_of_computed {n : String × Block}
    (hn : n ∈ (ctx.projection blocks).blocks) : n ∈ (ctx.usage blocks).negatedBlocks :=
  Generator.projection_blocks.mem hn

/-- The first block that equals one is among those looked through, and equals it. -/
theorem firstSame?_spec {a : Block} (h : firstSame? blocks b = some a) :
    a ∈ blocks.flatMap Block.negatedBlocks ∧ a.same b = true := by
  rw [firstSame?] at h
  exact ⟨List.mem_of_find?_eq_some h, by simpa using List.find?_some h⟩

section Finite

variable (hfinite : ∀ a ∈ blocks.flatMap Block.negatedBlocks, a.IsFinite)

include hfinite

/-- The projection computes a field for the first block that equals one if the block is compiled to
something, and else for none that equals it. -/
theorem find?_projection_blocks :
    ((ctx.projection blocks).blocks.find? (·.2.same b)).map (·.2) =
      if (ctx.generator.childrenExpr .document b).isSome then firstSame? blocks b else none := by
  have hpred : ∀ n ∈ (ctx.usage blocks).negatedBlocks,
      (n.2.same b && (ctx.generator.childrenExpr .document n.2).isSome) =
        ((ctx.generator.childrenExpr .document b).isSome && n.2.same b) := by
    intro n hn
    have hn : n.2.IsFinite := hfinite _ (Usage.mem_negatedBlocks hn)
    rw [Generator.isSome_childrenExpr, Generator.isSome_childrenExpr]
    cases hs : n.2.same b with
    | false => simp
    | true => rw [Generator.blockContributes_of_same hn hs, Bool.and_comm]
  rw [projection, Generator.projection_blocks_eq, ← List.head?_filter, List.filter_filter,
    List.filter_congr hpred]
  cases (ctx.generator.childrenExpr .document b).isSome with
  | false => simp
  | true =>
    simp only [Bool.true_and, if_true, List.head?_filter]
    exact Usage.find?_foldl_register (fun a ha ↦ isNegatedNamed_of_mem ha) hfinite (by simp)

/-- A block that is compiled to something is referred to by the name under which the projection
computes the first block that equals it. -/
theorem exists_computed (hb : b ∈ blocks.flatMap Block.negatedBlocks)
    (hsome : (ctx.generator.childrenExpr .document b).isSome = true) :
    ∃ n ∈ (ctx.projection blocks).blocks, ctx.RefersTo blocks b n.1 ∧
      firstSame? blocks b = some n.2 := by
  have hfirst : (firstSame? blocks b).isSome = true := by
    rw [firstSame?, List.find?_isSome]
    exact ⟨b, hb, Block.same_self (hfinite b hb)⟩
  obtain ⟨a, ha⟩ := Option.isSome_iff_exists.mp hfirst
  have hfind := @find?_projection_blocks ctx blocks b hfinite
  rw [if_pos hsome, ha] at hfind
  obtain ⟨n, hn, rfl⟩ := Option.map_eq_some_iff.mp hfind
  exact ⟨n, List.mem_of_find?_eq_some hn, (refersTo_iff hb).mpr ⟨n, hn, rfl⟩, ha⟩

/-- A block that is compiled to something has a field, and the first block that equals it is what
the field is computed by. -/
theorem exists_field (hb : b ∈ blocks.flatMap Block.negatedBlocks)
    (hsome : (ctx.generator.childrenExpr .document b).isSome = true) :
    ∃ name a, ctx.RefersTo blocks b name ∧ IsWord name ∧ name ≠ "" ∧
      firstSame? blocks b = some a ∧
      (ctx.projection blocks).members.get? name = ctx.generator.childrenExpr .document a := by
  obtain ⟨n, hn, href, hfirst⟩ := exists_computed hfinite hb hsome
  obtain ⟨hword, hne⟩ := Usage.isWord_of_mem_negatedBlocks (mem_negatedBlocks_of_computed hn)
  exact ⟨n.1, n.2, href, hword, hne, hfirst,
    Generator.get?_projection_blocks nodup_computedBlocks hn⟩

/-- A block that is compiled to nothing is not referred to, and no field is computed for an equal
one. -/
theorem not_computed (hb : b ∈ blocks.flatMap Block.negatedBlocks)
    (hnone : ctx.generator.childrenExpr .document b = none) :
    ctx.generator.blockQuery (ctx.projection blocks) b = none ∧
      ∀ n ∈ (ctx.projection blocks).blocks, n.2.same b = false := by
  have hfind := @find?_projection_blocks ctx blocks b hfinite
  rw [hnone, if_neg (by simp), Option.map_eq_none_iff] at hfind
  refine ⟨by rw [blockQuery_eq hb, hfind, Option.map_none], fun n hn ↦ ?_⟩
  simpa using List.find?_eq_none.mp hfind n hn

/-- Blocks that are referred to share a name exactly when they are equal. -/
theorem name_eq_iff {b' : Block} {name name' : String}
    (hb : b ∈ blocks.flatMap Block.negatedBlocks) (hb' : b' ∈ blocks.flatMap Block.negatedBlocks)
    (h : ctx.RefersTo blocks b name) (h' : ctx.RefersTo blocks b' name') :
    name = name' ↔ b.same b' = true := by
  obtain ⟨n, hn, rfl⟩ := (refersTo_iff hb).mp h
  obtain ⟨n', hn', rfl⟩ := (refersTo_iff hb').mp h'
  have hmem := List.mem_of_find?_eq_some hn
  have hcomputed : ∀ m ∈ (ctx.projection blocks).blocks, m.2.IsFinite := fun m hm ↦
    hfinite _ (Usage.mem_negatedBlocks (mem_negatedBlocks_of_computed hm))
  have hsame : n.2.same b = true := by simpa using List.find?_some hn
  have hsame' : n'.2.same b' = true := by simpa using List.find?_some hn'
  constructor
  · intro hname
    have heq : n = n' := List.inj_on_of_nodup_map nodup_computedBlocks hmem
      (List.mem_of_find?_eq_some hn') hname
    rw [← Block.same_congr (hcomputed n hmem) (hfinite b hb) hsame, heq]
    exact hsame'
  · intro hbb
    have hpred : ∀ m ∈ (ctx.projection blocks).blocks, m.2.same b = m.2.same b' := by
      intro m hm
      rw [Bool.eq_iff_iff, Block.same_iff m.2 b (hcomputed m hm),
        Block.same_iff m.2 b' (hcomputed m hm), (Block.same_iff b b' (hfinite b hb)).mp hbb]
    rw [← List.head?_filter, List.filter_congr hpred, List.head?_filter, hn'] at hn
    cases hn
    rfl

/-- The fields that the match refers to are computed by the blocks themselves exactly when equal
blocks are compiled alike. -/
theorem computed_iff :
    (∀ b ∈ blocks.flatMap Block.negatedBlocks, ∀ name, ctx.RefersTo blocks b name →
        (ctx.projection blocks).members.get? name = ctx.generator.childrenExpr .document b) ↔
      ∀ b ∈ blocks.flatMap Block.negatedBlocks, ∀ b' ∈ blocks.flatMap Block.negatedBlocks,
        b.same b' = true →
        ctx.generator.childrenExpr .document b = ctx.generator.childrenExpr .document b' := by
  constructor
  · intro hown b hb b' hb' hbb
    have hsome := Generator.blockContributes_of_same (g := ctx.generator) (hfinite b hb) hbb
    rw [← Generator.isSome_childrenExpr .document, ← Generator.isSome_childrenExpr .document]
      at hsome
    by_cases hb₁ : (ctx.generator.childrenExpr .document b).isSome = true
    · obtain ⟨name, -, h, -⟩ := exists_field hfinite hb hb₁
      obtain ⟨name', -, h', -⟩ := exists_field hfinite hb' (hsome ▸ hb₁)
      have hname : name = name' := (name_eq_iff hfinite hb hb' h h').mpr hbb
      rw [← hown b hb name h, ← hown b' hb' name' h', hname]
    · have hb₂ : ¬ (ctx.generator.childrenExpr .document b').isSome = true := hsome ▸ hb₁
      rw [Option.not_isSome_iff_eq_none] at hb₁ hb₂
      rw [hb₁, hb₂]
  · intro halike b hb name h
    cases hb₁ : ctx.generator.childrenExpr .document b with
    | none =>
      rw [RefersTo, (not_computed hfinite hb hb₁).1] at h
      cases h
    | some e =>
      obtain ⟨name', a, h', -, -, ha, hvalue⟩ := exists_field hfinite hb (by rw [hb₁]; rfl)
      obtain ⟨hmem, hsame⟩ := firstSame?_spec ha
      rw [(name_eq_iff hfinite hb hb h h').mpr (Block.same_self (hfinite b hb)), hvalue,
        halike a hmem b hb hsame, hb₁]

end Finite

/-- Both stages agree on the negated named blocks of a filter, in any context in which no definition
leads back to itself. A block that is compiled to nothing contributes to neither stage. Any other is
referred to by a name that only equal blocks share, and the field of that name is computed by the
first equal block; each block is computed by its own expression if and only if equal blocks are
compiled alike. -/
theorem negatedBlocks_agree_iff
    (hacyclic : ∀ name, ¬ TransGen ctx.resolver.Enters name name)
    (hfinite : ∀ b ∈ blocks.flatMap Block.negatedBlocks, b.IsFinite) :
    ∃ pipeline, ctx.compile? blocks = some pipeline ∧
      pipeline.projection.getD [] = (ctx.projection blocks).members ∧
      pipeline.filter.getD [] = ctx.filterMembers blocks ∧
      (∀ b ∈ blocks.flatMap Block.negatedBlocks,
        ctx.generator.childrenExpr .document b = none →
          ctx.generator.blockQuery (ctx.projection blocks) b = none ∧
            ∀ n ∈ (ctx.projection blocks).blocks, n.2.same b = false) ∧
      (∀ b ∈ blocks.flatMap Block.negatedBlocks,
        (ctx.generator.childrenExpr .document b).isSome = true →
          ∃ name a, ctx.RefersTo blocks b name ∧ IsWord name ∧ name ≠ "" ∧
            firstSame? blocks b = some a ∧
            (ctx.projection blocks).members.get? name =
              ctx.generator.childrenExpr .document a) ∧
      (∀ b ∈ blocks.flatMap Block.negatedBlocks, ∀ b' ∈ blocks.flatMap Block.negatedBlocks,
        ∀ name name', ctx.RefersTo blocks b name → ctx.RefersTo blocks b' name' →
          (name = name' ↔ b.same b' = true)) ∧
      ((∀ b ∈ blocks.flatMap Block.negatedBlocks, ∀ name, ctx.RefersTo blocks b name →
          (ctx.projection blocks).members.get? name =
            ctx.generator.childrenExpr .document b) ↔
        ∀ b ∈ blocks.flatMap Block.negatedBlocks, ∀ b' ∈ blocks.flatMap Block.negatedBlocks,
          b.same b' = true →
          ctx.generator.childrenExpr .document b = ctx.generator.childrenExpr .document b') := by
  obtain ⟨pipeline, hcompile, hprojection, hfilter, -⟩ := ctx.exists_compile?_eq hacyclic blocks
  exact ⟨pipeline, hcompile, hprojection, hfilter, fun b hb ↦ not_computed hfinite hb,
    fun b hb ↦ exists_field hfinite hb,
    fun b hb b' hb' name name' h h' ↦ name_eq_iff hfinite hb hb' h h', computed_iff hfinite⟩

/-- A filter with two different negated blocks that ask for names which are sanitized alike. -/
def namesakes : Block where
  id := "root"
  logic := .and
  children :=
    [.block ⟨"b 1", .and,
        [.condition ⟨"c", some "mag", some (.compare .gt), .literal (.int 20), none⟩],
        some "too faint", false⟩,
      .block ⟨"b 2", .and,
        [.condition ⟨"c", some "mag", some (.compare .gt), .literal (.int 21), none⟩],
        some "too-faint", false⟩]
  name := none
  mustHold := true

/-- In the filter of namesakes every negated block is computed by its own expression. -/
theorem namesakes_negatedBlocks_agree :
    ∃ pipeline, default.compile? [namesakes] = some pipeline ∧
      ((∀ b ∈ [namesakes].flatMap Block.negatedBlocks, ∀ name,
          default.RefersTo [namesakes] b name →
          (default.projection [namesakes]).members.get? name =
            default.generator.childrenExpr .document b) ↔
        ∀ b ∈ [namesakes].flatMap Block.negatedBlocks,
          ∀ b' ∈ [namesakes].flatMap Block.negatedBlocks, b.same b' = true →
          default.generator.childrenExpr .document b =
            default.generator.childrenExpr .document b') := by
  have hacyclic : ∀ name, ¬ TransGen default.resolver.Enters name name :=
    default.resolver.acyclic_iff.mpr fun _ h ↦ by cases h
  obtain ⟨pipeline, hcompile, -, -, -, -, -, hiff⟩ :=
    @negatedBlocks_agree_iff default [namesakes] hacyclic (by decide +kernel)
  exact ⟨pipeline, hcompile, hiff⟩

/-- A negated block named `odd` that asks for a text `s` in which a number occurs. -/
def oddBlock (x : Double) : Block where
  id := "b"
  logic := .and
  children := [.condition ⟨"c", some "s", some .regex, .literal (.double x), none⟩]
  name := some "odd"
  mustHold := false

/-- Roots that ask for no `0.0` and for no `-0.0` in a text. -/
def oddBlocks : List Block := [oddBlock (.zero false), oddBlock (.zero true)]

/-- The two blocks are equal, so that the match refers to both by one field, which is computed by
the first. -/
theorem oddBlocks_not_computed :
    default.resolver.isCircular oddBlocks (default.usage oddBlocks) = false ∧
      ¬ ∀ b ∈ oddBlocks.flatMap Block.negatedBlocks, ∀ name, default.RefersTo oddBlocks b name →
        (default.projection oddBlocks).members.get? name =
          default.generator.childrenExpr .document b := by
  refine ⟨by decide +kernel, fun hown ↦ ?_⟩
  have halike := (@computed_iff default oddBlocks (by decide +kernel)).mp hown
    (oddBlock (.zero false)) List.mem_cons_self (oddBlock (.zero true))
    (List.mem_cons_of_mem _ List.mem_cons_self) (by decide +kernel)
  let negative : Json := default.generator.regexExpr (.str "$s") "-0.0"
  have hfirst : (default.generator.childrenExpr .document (oddBlock (.zero false))).any
      (·.same negative) = false := by decide +kernel
  have hsecond : (default.generator.childrenExpr .document (oddBlock (.zero true))).any
      (·.same negative) = true := by decide +kernel
  rw [halike, hsecond] at hfirst
  cases hfirst

end Context
end FilterPipeline
