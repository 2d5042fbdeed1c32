import FilterPipeline.Json.Reader
import FilterPipeline.Proofs.CanonicalValues
import FilterPipeline.Proofs.TokenTexts

/-!
# Compact texts

The compact form of a value that is not nested too deeply is read as the value it was made of, but
for its numbers, which are what their own texts are read as.
-/

namespace FilterPipeline.Json

/-- How many lists and objects of a value enclose each other. -/
def nesting (v : Json) : Nat :=
  v.fold fun
    | .scalar _ => 0
    | .items parts => parts.foldr max 0 + 1
    | .members parts => (parts.map (·.2)).foldr max 0 + 1

/-- The structure of the text of a number, a string or a word. -/
def scalarSource : Json → Source
  | .null => .null
  | .bool b => .bool b
  | .int n => .int n
  | .double x => .double x
  | .str s => .str s
  | .arr _ | .obj _ => .unreadable

/-- The structure of the text of a value. -/
def toSource (v : Json) : Source :=
  v.fold fun
    | .scalar v => scalarSource v
    | .items parts => .arr parts
    | .members parts => .obj (parts.map fun m ↦ (some m.1, m.2))

/-- The token of a number, a string or a word. -/
def scalarToken (v : Json) : Token :=
  match v with
  | .str s => .text (some s)
  | v => .scalar (scalarSource v)

/-- The tokens of the text of a value. -/
def tokens (v : Json) : List Token :=
  v.fold fun
    | .scalar v => [scalarToken v]
    | .items parts => .openList :: ([Token.comma].intercalate parts ++ [.closeList])
    | .members parts => .openObject ::
        ([Token.comma].intercalate (parts.map fun m ↦ .text (some m.1) :: .colon :: m.2) ++
          [.closeObject])

/-- A value with other numbers. -/
def mapNumbers (g : Json → Json) (v : Json) : Json :=
  v.fold fun
    | .scalar v => if v.isNumber then g v else v
    | .items parts => .arr parts
    | .members parts => .obj parts

variable {v : Json} {items : List Json} {members : Members} {g : Json → Json}

private theorem mapNumbers_flat (h : v.isFlat = true) :
    v.mapNumbers g = if v.isNumber then g v else v := fold_flat h

private theorem mapNumbers_arr : (arr items).mapNumbers g = .arr (items.map (mapNumbers g)) :=
  fold_arr items

private theorem mapNumbers_obj :
    (obj members).mapNumbers g = .obj (members.map fun m ↦ (m.1, m.2.mapNumbers g)) :=
  fold_obj members

/-- A value with its own numbers. -/
theorem mapNumbers_id (v : Json) : v.mapNumbers id = v := by
  induction v using Json.induction with
  | scalar v h =>
    rw [mapNumbers_flat h]
    exact ite_self v
  | arr items ih =>
    have hitems : items.map (mapNumbers id) = items.map id := List.map_congr_left ih
    rw [mapNumbers_arr, hitems, List.map_id]
  | obj members ih =>
    have hmembers : members.map (fun m ↦ (m.1, m.2.mapNumbers id)) = members.map id :=
      List.map_congr_left fun m hm ↦ Prod.ext rfl (ih m hm)
    rw [mapNumbers_obj, hmembers, List.map_id]

private theorem nesting_flat (h : v.isFlat = true) : v.nesting = 0 := fold_flat h

private theorem nesting_arr :
    (arr items).nesting = (items.map nesting).foldr max 0 + 1 := fold_arr items

private theorem nesting_obj :
    (obj members).nesting = (members.map (nesting ∘ Prod.snd)).foldr max 0 + 1 := by
  have hnesting : (obj members).nesting =
      ((members.map fun m ↦ (m.1, m.2.nesting)).map (·.2)).foldr max 0 + 1 := fold_obj members
  rw [hnesting, List.map_map]
  rfl

private theorem le_foldr_max {n : Nat} {ns : List Nat} (h : n ∈ ns) : n ≤ ns.foldr max 0 := by
  induction ns with
  | nil => cases h
  | cons m rest ih =>
    rcases List.mem_cons.mp h with rfl | h
    · exact Nat.le_max_left _ _
    · exact (ih h).trans (Nat.le_max_right _ _)

private theorem nesting_lt_arr (h : v ∈ items) : v.nesting < (arr items).nesting := by
  rw [nesting_arr]
  exact Nat.lt_succ_of_le (le_foldr_max (List.mem_map_of_mem h))

private theorem nesting_lt_obj {m : String × Json} (h : m ∈ members) :
    m.2.nesting < (obj members).nesting := by
  rw [nesting_obj]
  exact Nat.lt_succ_of_le (le_foldr_max (List.mem_map_of_mem (f := nesting ∘ Prod.snd) h))

private theorem nesting_mapNumbers (h : ∀ s, s.isNumber = true → (g s).isFlat = true) (v : Json) :
    (v.mapNumbers g).nesting = v.nesting := by
  induction v using Json.induction with
  | scalar v hflat =>
    rw [mapNumbers_flat hflat]
    split
    · next hnumber => rw [nesting_flat (h v hnumber), nesting_flat hflat]
    · rfl
  | arr items ih =>
    rw [mapNumbers_arr, nesting_arr, nesting_arr, List.map_map]
    exact congrArg (fun ns ↦ ns.foldr max 0 + 1) (List.map_congr_left ih)
  | obj members ih =>
    rw [mapNumbers_obj, nesting_obj, nesting_obj, List.map_map]
    exact congrArg (fun ns ↦ ns.foldr max 0 + 1) (List.map_congr_left ih)

private theorem toSource_arr : (arr items).toSource = .arr (items.map toSource) := fold_arr items

private theorem toSource_obj :
    (obj members).toSource = .obj (members.map fun m ↦ (some m.1, m.2.toSource)) := by
  rw [toSource, fold_obj]
  simp only [List.map_map]
  rfl

private theorem tokens_flat (h : v.isFlat = true) : v.tokens = [scalarToken v] := fold_flat h

private theorem tokens_arr : (arr items).tokens =
    .openList :: ([Token.comma].intercalate (items.map tokens) ++ [.closeList]) := fold_arr items

/-- The tokens of a member. -/
def memberTokens (m : String × Json) : List Token := .text (some m.1) :: .colon :: m.2.tokens

private theorem tokens_obj : (obj members).tokens =
    .openObject :: ([Token.comma].intercalate (members.map memberTokens) ++ [.closeObject]) := by
  rw [tokens, fold_obj]
  simp only [List.map_map]
  rfl

private theorem toJson?_toSource (v : Json) : v.toSource.toJson? = some v := by
  induction v using Json.induction with
  | scalar v h => cases v <;> first | rfl | cases h
  | arr items ih =>
    rw [toSource_arr, Source.toJson?]
    have hitems : Source.itemsToJson? (items.map toSource) = some items := by
      induction items with
      | nil => rfl
      | cons v rest ihrest =>
        obtain ⟨hv, hrest⟩ := List.forall_mem_cons.mp ih
        rw [List.map_cons, Source.itemsToJson?, hv, ihrest hrest]
        rfl
    rw [hitems, Option.map_some]
  | obj members ih =>
    rw [toSource_obj, Source.toJson?]
    have hmembers : Source.membersToJson? (members.map fun m ↦ (some m.1, m.2.toSource)) =
        some members := by
      induction members with
      | nil => rfl
      | cons m rest ihrest =>
        obtain ⟨hm, hrest⟩ := List.forall_mem_cons.mp ih
        rw [List.map_cons, Source.membersToJson?, hm, ihrest hrest]
        rfl
    rw [hmembers, Option.map_some]

/-! ## From a text to its tokens -/

section Tokens

open Lexer (Spells IsPunctuation)

private theorem spells_intercalate {css : List (List Char)} {tss : List (List Token)}
    (h : List.Forall₂ Spells css tss) :
    Spells ([','].intercalate css) ([Token.comma].intercalate tss) := by
  have hcomma : IsPunctuation ',' .comma := ⟨rfl, fun _ ↦ rfl⟩
  induction h with
  | nil => exact Lexer.spells_nil
  | @cons cs ts css tss hfirst hrest ih =>
    cases hrest with
    | nil => rwa [List.intercalate_singleton, List.intercalate_singleton]
    | cons hsecond hrest =>
      rw [List.intercalate_cons_cons, List.intercalate_cons_cons, List.append_assoc,
        List.append_assoc, List.singleton_append, List.singleton_append]
      exact hfirst.punctuated hcomma ih

private theorem spells_bracketed {first last : Char} {t t' : Token} {cs : List Char}
    {ts : List Token} (hfirst : IsPunctuation first t) (hlast : IsPunctuation last t')
    (h : Spells cs ts) :
    Spells (first :: (cs ++ [last])) (t :: (ts ++ [t'])) :=
  Lexer.spells_nil.punctuated hfirst (h.punctuated hlast Lexer.spells_nil)

private theorem compact_arr :
    (arr items).compact = "[" ++ ",".intercalate (items.map compact) ++ "]" := by
  have hitems : compactItems items = items.map compact := by
    induction items with
    | nil => rfl
    | cons v rest ih => rw [compactItems, ih, List.map_cons]
  rw [compact, hitems]

/-- The compact form of a member. -/
def compactMember (m : String × Json) : String := writeString m.1 ++ ":" ++ m.2.compact

private theorem compact_obj :
    (obj members).compact = "\x7b" ++ ",".intercalate (members.map compactMember) ++ "\x7d" := by
  have hmembers : compactMembers members = members.map compactMember := by
    induction members with
    | nil => rfl
    | cons m rest ih => rw [compactMembers, ih, List.map_cons, compactMember]
  rw [compact, hmembers]

private theorem spells_compact (hflat : ∀ s, s.isNumber = true → (g s).isFlat = true)
    (h : ∀ s ∈ v.scalars, s.isNumber = true → Spells s.compact.toList [scalarToken (g s)]) :
    Spells v.compact.toList (v.mapNumbers g).tokens := by
  induction v using Json.induction with
  | scalar v hv =>
    have hread := h v (by rw [scalars_flat hv]; exact List.mem_singleton_self v)
    rw [mapNumbers_flat hv]
    split
    · next hnumber =>
      rw [tokens_flat (hflat v hnumber)]
      exact hread hnumber
    · next hword =>
      rw [tokens_flat hv]
      cases v with
      | null => exact Lexer.spells_scalar rfl (List.all_eq_true.mp (by decide))
      | bool b => cases b <;> exact Lexer.spells_scalar rfl (List.all_eq_true.mp (by decide))
      | str s => exact spells_writeString s
      | int n => exact absurd rfl hword
      | double x => exact absurd rfl hword
      | arr items => cases hv
      | obj members => cases hv
  | arr items ih =>
    have hparts : List.Forall₂ Spells ((items.map compact).map String.toList)
        ((items.map (mapNumbers g)).map tokens) := by
      rw [List.map_map, List.map_map, List.forall₂_map_left_iff, List.forall₂_map_right_iff,
        List.forall₂_same]
      exact fun v hv ↦ ih v hv fun s hs ↦ h s (mem_scalars_arr.mpr ⟨v, hv, hs⟩)
    rw [mapNumbers_arr, tokens_arr, compact_arr, String.toList_append, String.toList_append,
      String.toList_intercalate]
    exact spells_bracketed ⟨rfl, fun _ ↦ rfl⟩ ⟨rfl, fun _ ↦ rfl⟩ (spells_intercalate hparts)
  | obj members ih =>
    have hparts : List.Forall₂ Spells ((members.map compactMember).map String.toList)
        ((members.map fun m ↦ (m.1, m.2.mapNumbers g)).map memberTokens) := by
      rw [List.map_map, List.map_map, List.forall₂_map_left_iff, List.forall₂_map_right_iff,
        List.forall₂_same]
      intro m hm
      have hvalue := ih m hm fun s hs ↦ h s (mem_scalars_obj.mpr ⟨m, hm, hs⟩)
      rw [Function.comp_apply, compactMember, String.toList_append, String.toList_append,
        List.append_assoc]
      exact (spells_writeString m.1).punctuated ⟨rfl, fun _ ↦ rfl⟩ hvalue
    rw [mapNumbers_obj, tokens_obj, compact_obj, String.toList_append, String.toList_append,
      String.toList_intercalate]
    exact spells_bracketed ⟨rfl, fun _ ↦ rfl⟩ ⟨rfl, fun _ ↦ rfl⟩ (spells_intercalate hparts)

end Tokens

/-! ## From tokens to the structure -/

namespace Builder

variable {stack : List Frame} {n : Nat} {rest : List Token}

/-- A value whose tokens are taken in as the value, wherever a value may come next. -/
def TakesIn (v : Json) : Prop :=
  ∀ stack n rest, n + v.nesting ≤ maxNesting →
    (v.tokens ++ rest).foldlM step ⟨stack, n, .value⟩ =
      rest.foldlM step (put v.toSource stack n)

private theorem exists_tokens_eq_cons (v : Json) : ∃ t ts, v.tokens = t :: ts ∧ t ≠ .closeList := by
  cases v with
  | null | bool _ | int _ | double _ | str _ =>
    exact ⟨_, [], tokens_flat rfl, fun heq ↦ nomatch heq⟩
  | arr items => exact ⟨_, _, tokens_arr, fun heq ↦ nomatch heq⟩
  | obj members => exact ⟨_, _, tokens_obj, fun heq ↦ nomatch heq⟩

private theorem foldlM_valueOrClose (v : Json) :
    (v.tokens ++ rest).foldlM step ⟨stack, n, .valueOrClose⟩ =
      (v.tokens ++ rest).foldlM step ⟨stack, n, .value⟩ := by
  obtain ⟨t, ts, hts, ht⟩ := exists_tokens_eq_cons v
  have hstep : step ⟨stack, n, .valueOrClose⟩ t = step ⟨stack, n, .value⟩ t := by
    cases t <;> first | rfl | exact absurd rfl ht
  rw [hts, List.cons_append, List.foldlM_cons, List.foldlM_cons, hstep]

/-- The end of a list that is not nested too deeply. -/
theorem step_closeList {read : List Source} {expected : Expected}
    (h : expected = .separator ∨ expected = .valueOrClose) (hn : n < maxNesting) :
    step ⟨.list read :: stack, n + 1, expected⟩ .closeList =
      some (put (.arr read.reverse) stack n) := by
  have hclose : close ⟨.list read :: stack, n + 1, expected⟩ =
      some (put (.arr read.reverse) stack n) := by
    rw [close]
    simp only [if_neg (Nat.not_lt.mpr (Nat.succ_le_of_lt hn)), Nat.add_sub_cancel]
  rcases h with rfl | rfl <;> exact hclose

private theorem foldlM_items {items : List Json} (h : ∀ v ∈ items, TakesIn v) (hne : items ≠ [])
    (hn : ∀ v ∈ items, n + 1 + v.nesting ≤ maxNesting) (read : List Source) :
    ([Token.comma].intercalate (items.map tokens) ++ .closeList :: rest).foldlM step
        ⟨.list read :: stack, n + 1, .value⟩ =
      rest.foldlM step (put (.arr (read.reverse ++ items.map toSource)) stack n) := by
  induction items generalizing read with
  | nil => exact absurd rfl hne
  | cons v others ih =>
    obtain ⟨hv, hothers⟩ := List.forall_mem_cons.mp h
    obtain ⟨hnv, hnothers⟩ := List.forall_mem_cons.mp hn
    cases others with
    | nil =>
      have hlt : n < maxNesting := by omega
      rw [List.map_singleton, List.intercalate_singleton, hv _ _ _ hnv, put, List.foldlM_cons,
        step_closeList (Or.inl rfl) hlt, List.map_singleton, List.reverse_cons]
      rfl
    | cons w others =>
      have hcomma (read : List Source) : step ⟨.list read :: stack, n + 1, .separator⟩ .comma =
          some ⟨.list read :: stack, n + 1, .value⟩ := rfl
      rw [List.map_cons, List.map_cons, List.intercalate_cons_cons, List.append_assoc,
        List.append_assoc, hv _ _ _ hnv, put, List.singleton_append, List.foldlM_cons, hcomma,
        Option.bind_eq_bind, Option.bind_some, ← List.map_cons,
        ih hothers (List.cons_ne_nil _ _) hnothers, List.reverse_cons, List.append_assoc,
        List.singleton_append]
      rfl

/-- The end of an object that is not nested too deeply. -/
theorem step_closeObject {read : List (Option String × Source)} {key : Option String}
    {expected : Expected} (h : expected = .separator ∨ expected = .keyOrClose)
    (hn : n < maxNesting) :
    step ⟨.object read key :: stack, n + 1, expected⟩ .closeObject =
      some (put (.obj read.reverse) stack n) := by
  have hclose : close ⟨.object read key :: stack, n + 1, expected⟩ =
      some (put (.obj read.reverse) stack n) := by
    rw [close]
    simp only [if_neg (Nat.not_lt.mpr (Nat.succ_le_of_lt hn)), Nat.add_sub_cancel]
  rcases h with rfl | rfl <;> exact hclose

private theorem foldlM_member {m : String × Json} (h : TakesIn m.2)
    (hn : n + 1 + m.2.nesting ≤ maxNesting) {expected : Expected}
    (hexpected : expected = .key ∨ expected = .keyOrClose) (read : List (Option String × Source))
    (key : Option String) :
    (memberTokens m ++ rest).foldlM step ⟨.object read key :: stack, n + 1, expected⟩ =
      rest.foldlM step ⟨.object ((some m.1, m.2.toSource) :: read) (some m.1) :: stack, n + 1,
        .separator⟩ := by
  have hkey : step ⟨.object read key :: stack, n + 1, expected⟩ (.text (some m.1)) =
      some ⟨.object read (some m.1) :: stack, n + 1, .colon⟩ := by
    rcases hexpected with rfl | rfl <;> rfl
  have hcolon : step ⟨.object read (some m.1) :: stack, n + 1, .colon⟩ .colon =
      some ⟨.object read (some m.1) :: stack, n + 1, .value⟩ := rfl
  rw [memberTokens, List.cons_append, List.cons_append, List.foldlM_cons, hkey, Option.bind_eq_bind,
    Option.bind_some, List.foldlM_cons, hcolon, Option.bind_eq_bind, Option.bind_some, h _ _ _ hn]
  rfl

private theorem foldlM_members {members : Members} (h : ∀ m ∈ members, TakesIn m.2)
    (hne : members ≠ []) (hn : ∀ m ∈ members, n + 1 + m.2.nesting ≤ maxNesting)
    {expected : Expected} (hexpected : expected = .key ∨ expected = .keyOrClose)
    (read : List (Option String × Source)) (key : Option String) :
    ([Token.comma].intercalate (members.map memberTokens) ++ .closeObject :: rest).foldlM step
        ⟨.object read key :: stack, n + 1, expected⟩ =
      rest.foldlM step
        (put (.obj (read.reverse ++ members.map fun m ↦ (some m.1, m.2.toSource))) stack n) := by
  induction members generalizing read key expected with
  | nil => exact absurd rfl hne
  | cons m others ih =>
    obtain ⟨hm, hothers⟩ := List.forall_mem_cons.mp h
    obtain ⟨hnm, hnothers⟩ := List.forall_mem_cons.mp hn
    cases others with
    | nil =>
      have hlt : n < maxNesting := by omega
      rw [List.map_singleton, List.intercalate_singleton, foldlM_member hm hnm hexpected,
        List.foldlM_cons, step_closeObject (Or.inl rfl) hlt, List.map_singleton, List.reverse_cons]
      rfl
    | cons m' others =>
      have hcomma (read : List (Option String × Source)) (key : Option String) :
          step ⟨.object read key :: stack, n + 1, .separator⟩ .comma =
            some ⟨.object read key :: stack, n + 1, .key⟩ := rfl
      rw [List.map_cons, List.map_cons, List.intercalate_cons_cons, List.append_assoc,
        List.append_assoc, foldlM_member hm hnm hexpected, List.singleton_append, List.foldlM_cons,
        hcomma, Option.bind_eq_bind, Option.bind_some, ← List.map_cons,
        ih hothers (List.cons_ne_nil _ _) hnothers (Or.inl rfl), List.reverse_cons,
        List.append_assoc, List.singleton_append]
      rfl

private theorem takesIn (v : Json) : TakesIn v := by
  induction v using Json.induction with
  | scalar v h =>
    intro stack n rest _
    have hstart : step ⟨stack, n, .value⟩ (scalarToken v) = some (put v.toSource stack n) := by
      cases v <;> first | rfl | cases h
    rw [tokens_flat h, List.singleton_append, List.foldlM_cons, hstart]
    rfl
  | arr items ih =>
    intro stack n rest hn
    have hopen : step ⟨stack, n, .value⟩ .openList =
        some ⟨.list [] :: stack, n + 1, .valueOrClose⟩ := rfl
    rw [tokens_arr, List.cons_append, List.append_assoc, List.singleton_append, List.foldlM_cons,
      hopen, Option.bind_eq_bind, Option.bind_some, toSource_arr]
    cases items with
    | nil =>
      have hlt : n < maxNesting := by
        rw [nesting_arr] at hn
        omega
      have hclose : step ⟨.list [] :: stack, n + 1, .valueOrClose⟩ .closeList =
          some (put (.arr []) stack n) := step_closeList (Or.inr rfl) hlt
      rw [List.map_nil, List.intercalate_nil, List.nil_append, List.foldlM_cons, hclose]
      rfl
    | cons v others =>
      have hitems : ∀ w ∈ v :: others, n + 1 + w.nesting ≤ maxNesting := fun w hw ↦ by
        have hlt := nesting_lt_arr hw
        omega
      have hfirst (cs : List (List Token)) : ∃ ts,
          [Token.comma].intercalate (v.tokens :: cs) ++ .closeList :: rest = v.tokens ++ ts := by
        cases cs with
        | nil => exact ⟨_, congrArg (· ++ _) List.intercalate_singleton⟩
        | cons c cs =>
          exact ⟨_, by rw [List.intercalate_cons_cons, List.append_assoc, List.append_assoc]⟩
      obtain ⟨ts, hts⟩ := hfirst (others.map tokens)
      rw [List.map_cons, hts, foldlM_valueOrClose, ← hts, ← List.map_cons]
      exact foldlM_items ih (List.cons_ne_nil _ _) hitems []
  | obj members ih =>
    intro stack n rest hn
    have hopen : step ⟨stack, n, .value⟩ .openObject =
        some ⟨.object [] none :: stack, n + 1, .keyOrClose⟩ := rfl
    rw [tokens_obj, List.cons_append, List.append_assoc, List.singleton_append, List.foldlM_cons,
      hopen, Option.bind_eq_bind, Option.bind_some, toSource_obj]
    cases members with
    | nil =>
      have hlt : n < maxNesting := by
        rw [nesting_obj] at hn
        omega
      have hclose : step ⟨.object [] none :: stack, n + 1, .keyOrClose⟩ .closeObject =
          some (put (.obj []) stack n) := step_closeObject (Or.inr rfl) hlt
      rw [List.map_nil, List.intercalate_nil, List.nil_append, List.foldlM_cons, hclose]
      rfl
    | cons m others =>
      have hmembers : ∀ m' ∈ m :: others, n + 1 + m'.2.nesting ≤ maxNesting := fun m' hm' ↦ by
        have hlt := nesting_lt_obj hm'
        omega
      exact foldlM_members ih (List.cons_ne_nil _ _) hmembers (Or.inr rfl) [] none

end Builder

/-- The compact form of a value that is not nested too deeply is read as the value with the numbers
that its numbers are read as. -/
theorem ofText?_compact (hnesting : v.nesting ≤ maxNesting)
    (hflat : ∀ s, s.isNumber = true → (g s).isFlat = true)
    (h : ∀ s ∈ v.scalars, s.isNumber = true → Lexer.Spells s.compact.toList [scalarToken (g s)]) :
    ofText? v.compact = some (v.mapNumbers g) := by
  have hread := Builder.takesIn (v.mapNumbers g) [] 0 []
    (by rwa [Nat.zero_add, nesting_mapNumbers hflat])
  rw [List.append_nil] at hread
  have hsource : readSource? v.compact = some (v.mapNumbers g).toSource := by
    rw [readSource?, (spells_compact hflat h).tokens?_eq, Option.bind_eq_bind, Option.bind_some,
      hread]
    rfl
  rw [ofText?, hsource, Option.bind_eq_bind, Option.bind_some, toJson?_toSource]

end FilterPipeline.Json
