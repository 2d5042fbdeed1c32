import FilterPipeline.Formula.Names

/-!
# Names that a formula's tree can hold

Dependencies are read off a formula's plain text token by token, while the tree is made by taking
the text apart. Everything about tokens follows from one equation: the identifiers of a text with a
separator in it are those before it and those behind it. Main statement: a field leaf of the tree
that is an identifier is an identifier of the text.
-/

namespace FilterPipeline.Formula

open Text

/-- A character of a kind that no character of a text is of does not stand in it. -/
theorem not_mem_of_all_not {p : Char → Bool} {cs : List Char} (h : cs.all (fun c ↦ !p c) = true)
    {c : Char} (hc : p c = true) : c ∉ cs := by
  intro hmem
  have hnot := List.all_eq_true.mp h c hmem
  rw [hc] at hnot
  cases hnot

/-- A character that ends an identifier and does not keep the next one from counting. -/
def IsSeparator (c : Char) : Prop := isIdentifierChar c = false ∧ c ≠ '\\'

/-- Being a separator is decided by the kind of the character. -/
instance (c : Char) : Decidable (IsSeparator c) :=
  inferInstanceAs (Decidable (isIdentifierChar c = false ∧ c ≠ '\\'))

/-- The first character of an identifier can stand anywhere in one. -/
theorem isIdentifierChar_of_start {c : Char} (h : isIdentifierStart c = true) :
    isIdentifierChar c = true := by
  rw [isIdentifierStart, Bool.or_eq_true] at h
  rcases h with h | h
  · simp [isIdentifierChar, Char.isAlphanum, h]
  · simp [isIdentifierChar, h]

private theorem IsSeparator.not_start {c : Char} (h : IsSeparator c) :
    isIdentifierStart c = false :=
  Bool.eq_false_iff.mpr fun hs ↦ Bool.eq_false_iff.mp h.1 (isIdentifierChar_of_start hs)

private theorem IsSeparator.not_blocks {c : Char} (h : IsSeparator c) :
    (c.isDigit || c == '.' || c == '\\') = false := by
  obtain ⟨h, hslash⟩ := h
  simp only [isIdentifierChar, Char.isAlphanum, Bool.or_eq_false_iff] at h ⊢
  exact ⟨⟨h.1.1.2, h.2⟩, by simpa using hslash⟩

namespace TokenWalk

private theorem step_separator {c : Char} (h : IsSeparator c) (w : TokenWalk) :
    w.step c = ⟨w.close, .outside (some c)⟩ := by
  obtain ⟨found, state⟩ := w
  cases state with
  | outside previous => simp [step, close, h.not_start]
  | inside token kept => simp [step, h.1]

private theorem step_found (found : List (List Char)) (w : TokenWalk) (c : Char) :
    step ⟨w.found ++ found, w.state⟩ c = ⟨(w.step c).found ++ found, (w.step c).state⟩ := by
  obtain ⟨earlier, state⟩ := w
  cases state with
  | outside previous =>
    simp only [step]
    split <;> rfl
  | inside token kept =>
    simp only [step]
    split
    · rfl
    · cases kept <;> rfl

private theorem foldl_step_found (found : List (List Char)) (cs : List Char) (w : TokenWalk) :
    cs.foldl step ⟨w.found ++ found, w.state⟩ =
      ⟨(cs.foldl step w).found ++ found, (cs.foldl step w).state⟩ := by
  induction cs generalizing w with
  | nil => rfl
  | cons c cs ih =>
    rw [List.foldl_cons, List.foldl_cons, step_found]
    exact ih (w.step c)

private theorem close_found (found : List (List Char)) (w : TokenWalk) :
    close ⟨w.found ++ found, w.state⟩ = w.close ++ found := by
  obtain ⟨earlier, state⟩ := w
  cases state with
  | outside previous => rfl
  | inside token kept => cases kept <;> rfl

private theorem foldl_step_outside {c : Char} (h : IsSeparator c) (cs : List Char) :
    (cs.foldl step ⟨[], .outside (some c)⟩).close = (cs.foldl step ⟨[], .outside none⟩).close := by
  cases cs with
  | nil => rfl
  | cons d cs =>
    rw [List.foldl_cons, List.foldl_cons]
    simp only [step, Option.any_some, h.not_blocks, Option.any_none]

/-- Characters that can stand in an identifier go on with the one that is being read. -/
theorem foldl_step_inside (found : List (List Char)) (token : List Char) (kept : Bool)
    {cs : List Char} (h : ∀ c ∈ cs, isIdentifierChar c = true) :
    cs.foldl step ⟨found, .inside token kept⟩ = ⟨found, .inside (cs.reverse ++ token) kept⟩ := by
  induction cs generalizing token with
  | nil => rfl
  | cons c cs ih =>
    rw [List.forall_mem_cons] at h
    rw [List.foldl_cons]
    simp only [step, h.1, if_true]
    rw [ih (c :: token) h.2]
    simp

/-- The identifiers that have been read, and the one that is being read, consist of characters that
can stand in one. -/
structure IsLexical (w : TokenWalk) : Prop where
  found : ∀ token ∈ w.found, ∀ c ∈ token, isIdentifierChar c = true
  state : ∀ token kept, w.state = .inside token kept → ∀ c ∈ token, isIdentifierChar c = true

/-- Closing keeps to characters that can stand in identifiers. -/
theorem IsLexical.close {w : TokenWalk} (h : w.IsLexical) :
    ∀ token ∈ w.close, ∀ c ∈ token, isIdentifierChar c = true := by
  intro token ht
  unfold TokenWalk.close at ht
  split at ht
  · next inner heq =>
    rcases List.mem_cons.mp ht with rfl | ht
    · exact fun c hc ↦ h.state inner true heq c (List.mem_reverse.mp hc)
    · exact h.found token ht
  · exact h.found token ht

private theorem IsLexical.step {w : TokenWalk} (h : w.IsLexical) (c : Char) :
    (w.step c).IsLexical := by
  unfold TokenWalk.step
  split
  · split
    · next hc =>
      refine ⟨h.found, fun token kept heq ↦ ?_⟩
      cases heq
      exact List.forall_mem_singleton.mpr (isIdentifierChar_of_start hc)
    · exact ⟨h.found, fun _ _ heq ↦ by cases heq⟩
  · next inner kept hstate =>
    split
    · next hc =>
      refine ⟨h.found, fun token kept' heq ↦ ?_⟩
      cases heq
      exact List.forall_mem_cons.mpr ⟨hc, h.state inner kept hstate⟩
    · exact ⟨h.close, fun _ _ heq ↦ by cases heq⟩

end TokenWalk

/-- The identifiers of a text with a separator in it are those before it and those behind it. -/
theorem identifiers_append_separator {c : Char} (h : IsSeparator c) (before after : List Char) :
    identifiers (before ++ c :: after) = identifiers before ++ identifiers after := by
  simp only [identifiers, List.foldl_append, List.foldl_cons]
  generalize before.foldl TokenWalk.step ⟨[], .outside none⟩ = w
  rw [TokenWalk.step_separator h]
  have hfound := TokenWalk.foldl_step_found w.close after ⟨[], .outside (some c)⟩
  rw [List.nil_append] at hfound
  rw [hfound, TokenWalk.close_found, TokenWalk.foldl_step_outside h, List.reverse_append]

/-- Separators at the start hold no identifiers. -/
theorem identifiers_separators_append {cs : List Char} (h : ∀ c ∈ cs, IsSeparator c)
    (after : List Char) : identifiers (cs ++ after) = identifiers after := by
  induction cs with
  | nil => rfl
  | cons c cs ih =>
    rw [List.forall_mem_cons] at h
    have hsplit := identifiers_append_separator h.1 [] (cs ++ after)
    rw [List.nil_append] at hsplit
    rw [List.cons_append, hsplit, ih h.2]
    rfl

private theorem identifiers_append_separators {cs : List Char} (h : ∀ c ∈ cs, IsSeparator c)
    (before : List Char) : identifiers (before ++ cs) = identifiers before := by
  cases cs with
  | nil => rw [List.append_nil]
  | cons c cs =>
    rw [List.forall_mem_cons] at h
    have hcs := identifiers_separators_append h.2 []
    rw [List.append_nil] at hcs
    rw [identifiers_append_separator h.1, hcs]
    exact List.append_nil _

/-- The identifiers of a text consist of characters that can stand in one. -/
theorem isIdentifierChar_of_mem_identifiers {cs token : List Char} (h : token ∈ identifiers cs) :
    ∀ c ∈ token, isIdentifierChar c = true := by
  have hwalk : (cs.foldl TokenWalk.step ⟨[], .outside none⟩).IsLexical :=
    List.foldlRecOn cs _ ⟨by simp, by simp⟩ fun _ hw c _ ↦ hw.step c
  exact hwalk.close token (List.mem_reverse.mp h)

/-- An identifier is its own only identifier. -/
theorem identifiers_of_isIdentifier {cs : List Char} (h : isIdentifier cs = true) :
    identifiers cs = [cs] := by
  cases cs with
  | nil => cases h
  | cons c cs =>
    simp only [isIdentifier, Bool.and_eq_true, List.all_eq_true] at h
    simp only [identifiers, List.foldl_cons, TokenWalk.step, h.1, if_true, Option.any_none,
      Bool.not_false]
    rw [TokenWalk.foldl_step_inside [] [c] true h.2]
    simp [TokenWalk.close]

/-- The characters of an identifier can all stand in one. -/
theorem isIdentifierChar_of_isIdentifier {cs : List Char} (h : isIdentifier cs = true) :
    ∀ c ∈ cs, isIdentifierChar c = true := by
  apply isIdentifierChar_of_mem_identifiers
  rw [identifiers_of_isIdentifier h]
  exact List.mem_singleton_self cs

private theorem toNat_of_isBlank {c : Char} (h : isBlank c = true) :
    c.toNat ≤ 0x20 ∨ 0x7F ≤ c.toNat := by
  simp only [isBlank, Bool.or_eq_true, Bool.and_eq_true, decide_eq_true_eq, beq_iff_eq,
    UInt32.le_iff_toNat_le, ← UInt32.toNat_inj] at h
  simp only [Char.toNat]
  simp at h ⊢
  omega

private theorem toNat_of_isIdentifierChar {c : Char} (h : isIdentifierChar c = true) :
    0x21 ≤ c.toNat ∧ c.toNat ≤ 0x7E := by
  simp only [isIdentifierChar, Char.isAlphanum, Char.isDigit, Bool.or_eq_true] at h
  delta Char.isAlpha Char.isUpper Char.isLower at h
  simp only [Bool.or_eq_true, Bool.and_eq_true, decide_eq_true_eq, beq_iff_eq] at h
  rcases h with (h | rfl) | rfl
  · simp only [UInt32.le_iff_toNat_le, ge_iff_le] at h
    simp only [Char.toNat]
    simp at h ⊢
    omega
  · decide
  · decide

/-- A blank is a separator. -/
theorem isSeparator_of_isBlank {c : Char} (h : isBlank c = true) : IsSeparator c := by
  have hb := toNat_of_isBlank h
  constructor
  · cases hc : isIdentifierChar c with
    | false => rfl
    | true =>
      have := toNat_of_isIdentifierChar hc
      omega
  · rintro rfl
    revert hb
    decide

/-- A character of an identifier is no blank. -/
theorem not_isBlank_of_isIdentifierChar {c : Char} (h : isIdentifierChar c = true) :
    isBlank c = false := by
  rw [← Bool.not_eq_true]
  intro hblank
  rw [(isSeparator_of_isBlank hblank).1] at h
  cases h

/-- Blanks at the ends of a text hold no identifiers. -/
theorem identifiers_trim (cs : List Char) : identifiers (trim cs) = identifiers cs := by
  have hblank : ∀ (cs : List Char), ∀ c ∈ cs.takeWhile isBlank, IsSeparator c :=
    fun cs c hc ↦ isSeparator_of_isBlank (List.all_eq_true.mp List.all_takeWhile c hc)
  have hleft : ∀ cs : List Char, identifiers (cs.dropWhile isBlank) = identifiers cs := by
    intro cs
    have h := identifiers_separators_append (hblank cs) (cs.dropWhile isBlank)
    rw [List.takeWhile_append_dropWhile] at h
    exact h.symm
  have hright : ∀ cs : List Char, identifiers (trimRight cs) = identifiers cs := by
    intro cs
    have h := identifiers_append_separators
      (fun c hc ↦ hblank cs.reverse c (List.mem_reverse.mp hc)) (trimRight cs)
    rw [trimRight, ← List.reverse_append, List.takeWhile_append_dropWhile,
      List.reverse_reverse] at h
    exact h.symm
  rw [trim, hright, hleft]

/-- The character of an operator is a separator. -/
theorem isSeparator_symbol (op : BinaryOp) : IsSeparator op.symbol := by cases op <;> decide

/-- Behind a separator the identifiers of a text are still there. -/
theorem mem_identifiers_of_right {c : Char} (h : IsSeparator c) {token after : List Char}
    (before : List Char) (ht : token ∈ identifiers after) :
    token ∈ identifiers (before ++ c :: after) := by
  rw [identifiers_append_separator h]
  exact List.mem_append_right _ ht

/-- Before a separator the identifiers of a text are still there. -/
theorem mem_identifiers_of_left {c : Char} (h : IsSeparator c) {token before : List Char}
    (after : List Char) (ht : token ∈ identifiers before) :
    token ∈ identifiers (before ++ c :: after) := by
  rw [identifiers_append_separator h]
  exact List.mem_append_left _ ht

/-- A text is what stands before one of its characters, that character, and what stands behind. -/
theorem eq_take_cons_drop {cs : List Char} {i : Nat} {c : Char} (h : cs[i]? = some c) :
    cs = cs.take i ++ c :: cs.drop (i + 1) := by
  obtain ⟨hi, rfl⟩ := List.getElem?_eq_some_iff.mp h
  rw [← List.drop_eq_getElem_cons hi, List.take_append_drop]

/-- The positions found are positions of the parenthesis. -/
theorem mem_of_mem_outerPositions {parenthesis : Char} {cs : List (Char × Nat)} {i : Nat}
    (h : i ∈ outerPositions parenthesis cs) : (parenthesis, i) ∈ cs := by
  rw [outerPositions, List.mem_filterMap] at h
  obtain ⟨⟨c, j⟩, hmem, hc⟩ := h
  have hcs := (List.takeWhile_prefix _).subset hmem
  dsimp only at hc
  split at hc
  · next he =>
    cases hc
    rw [← eq_of_beq he]
    exact hcs
  · cases hc

/-- Parentheses that wrap a text are an opening one and a closing one behind it. -/
theorem of_mem_wrappingPairs {cs : List Char} {opening closing : Nat}
    (h : (opening, closing) ∈ wrappingPairs cs) :
    opening < closing ∧ cs[opening]? = some '(' ∧ cs[closing]? = some ')' := by
  simp only [wrappingPairs] at h
  have hlt := List.all_eq_true.mp List.all_takeWhile _ h
  obtain ⟨ho, hc⟩ := List.of_mem_zip ((List.takeWhile_prefix _).subset h)
  have hc := List.mem_reverse.mp (mem_of_mem_outerPositions hc)
  have ho := mem_of_mem_outerPositions ho
  simp only [Bool.and_eq_true, decide_eq_true_eq] at hlt
  exact ⟨hlt.1, List.mem_zipIdx_iff_getElem?.mp ho, List.mem_zipIdx_iff_getElem?.mp hc⟩

private theorem mem_identifiers_of_stripParentheses {cs token : List Char}
    (h : token ∈ identifiers (stripParentheses cs)) : token ∈ identifiers cs := by
  rw [stripParentheses] at h
  split at h
  · exact h
  · next opening closing hlast =>
    obtain ⟨hlt, ho, hc⟩ := of_mem_wrappingPairs (List.mem_of_getLast? hlast)
    rw [identifiers_trim] at h
    have htake : (cs.take closing)[opening]? = some '(' := by
      rw [List.getElem?_take_of_lt hlt, ho]
    rw [eq_take_cons_drop hc]
    apply mem_identifiers_of_left (by decide)
    rw [eq_take_cons_drop htake]
    exact mem_identifiers_of_right (by decide) _ h

/-- The part before the closing bracket, the bracket and the part behind it make up the text. -/
theorem eq_of_splitClose {opening closing : Char} {depth : Nat}
    {gathered cs inside after : List Char}
    (h : splitClose opening closing depth gathered cs = some (inside, after)) :
    ∃ read, inside = gathered.reverse ++ read ∧ cs = read ++ closing :: after := by
  induction cs generalizing depth gathered with
  | nil => cases h
  | cons c cs ih =>
    have hmore : ∀ depth, splitClose opening closing depth (c :: gathered) cs =
        some (inside, after) →
        ∃ read, inside = gathered.reverse ++ read ∧ c :: cs = read ++ closing :: after := by
      intro depth h
      obtain ⟨read, rfl, rfl⟩ := ih h
      exact ⟨c :: read, by simp, rfl⟩
    simp only [splitClose] at h
    split at h
    · exact hmore _ h
    · split at h
      · next hc =>
        split at h
        · cases h
          exact ⟨[], by simp, by rw [hc, List.nil_append]⟩
        · exact hmore _ h
      · exact hmore _ h

private theorem mem_identifiers_of_splitCall? {cs arg token : List Char} {f : MathFunction}
    (h : splitCall? cs = some (f, arg)) (ht : token ∈ identifiers arg) :
    token ∈ identifiers cs := by
  have hcs := List.takeWhile_append_dropWhile (p := (· != '(')) (l := cs)
  have hnot := List.head?_dropWhile_not (· != '(') cs
  rw [splitCall?] at h
  generalize cs.dropWhile (· != '(') = rest at h hcs hnot
  cases rest with
  | nil => cases h
  | cons c rest =>
    have hc : c = '(' := by simpa using hnot
    simp only [Option.bind_eq_bind, Option.bind_eq_some_iff] at h
    obtain ⟨g, -, ⟨inside, after⟩, hclose, h⟩ := h
    obtain ⟨read, hread, hrest⟩ := eq_of_splitClose hclose
    rw [List.reverse_nil, List.nil_append] at hread
    dsimp only at h
    split at h
    · cases h
      rw [← hcs, hc]
      apply mem_identifiers_of_right (by decide)
      rw [hrest, ← hread]
      exact mem_identifiers_of_left (by decide) _ ht
    · cases h

private theorem symbol_of_ofChar? {c : Char} {op : BinaryOp} (h : BinaryOp.ofChar? c = some op) :
    op.symbol = c := by
  unfold BinaryOp.ofChar? at h
  split at h
  all_goals cases h
  all_goals rfl

/-- A place to split at lies between the two parts. -/
theorem eq_of_splitAt? {before after : List Char} {c : Char} {s : Split}
    (h : splitAt? before c after = some s) :
    s.left = before ∧ s.op.symbol = c ∧ s.right = after := by
  unfold splitAt? at h
  split at h
  · cases h
  · next op hop =>
    split at h
    · cases h
    · split at h
      · cases h
      · cases h
        exact ⟨rfl, symbol_of_ofChar? hop, rfl⟩

private theorem preferred_eq_or {best : Option Split} {next s : Split}
    (h : preferred best next = some s) :
    s = next ∨ best = some s := by
  unfold preferred at h
  split at h
  · exact .inl (Option.some.inj h).symm
  · split at h
    · exact .inl (Option.some.inj h).symm
    · split at h
      · exact .inl (Option.some.inj h).symm
      · exact .inr h

private theorem eq_of_findSplit {cs before after : List Char} {depth : Int} {best : Option Split}
    {s : Split} (hcs : before.reverse ++ after = cs)
    (hbest : ∀ s, best = some s → s.left.reverse ++ s.op.symbol :: s.right = cs)
    (h : findSplit before after depth best = some s) :
    s.left.reverse ++ s.op.symbol :: s.right = cs := by
  induction before generalizing after depth best with
  | nil => exact hbest s h
  | cons c before ih =>
    have hnext : before.reverse ++ c :: after = cs := by
      rw [← hcs, List.reverse_cons, List.append_assoc, List.singleton_append]
    simp only [findSplit] at h
    split at h
    · exact ih hnext hbest h
    · split at h
      · exact ih hnext hbest h
      · refine ih hnext ?_ h
        intro s hs
        split at hs
        · split at hs
          · next next hat =>
            rcases preferred_eq_or hs with rfl | hs
            · obtain ⟨hl, hop, hr⟩ := eq_of_splitAt? hat
              rw [hl, hop, hr, hnext]
            · exact hbest s hs
          · exact hbest s hs
        · exact hbest s hs

/-- The parts at the main operator and the operator make up the text. -/
theorem eq_of_mainOperator? {cs : List Char} {s : Split} (h : mainOperator? cs = some s) :
    cs = s.left ++ s.op.symbol :: s.right := by
  rw [mainOperator?, Option.map_eq_some_iff] at h
  obtain ⟨r, hr, rfl⟩ := h
  exact (eq_of_findSplit (by simp) (by simp) hr).symm

/-- A field leaf of a text's tree that is an identifier is an identifier of the text. -/
theorem mem_identifiers_of_mem_fields {levels : Nat} {cs : List Char} {leaf : String}
    (hleaf : isIdentifier leaf.toList = true) (h : leaf ∈ (ofPlain levels cs).fields) :
    leaf.toList ∈ identifiers cs := by
  have hwhole : ∀ cs : List Char, leaf ∈ (field (String.ofList cs)).fields →
      leaf.toList ∈ identifiers cs := by
    intro cs h
    rw [fields, List.mem_singleton] at h
    subst h
    rw [String.toList_ofList] at hleaf ⊢
    rw [identifiers_of_isIdentifier hleaf]
    exact List.mem_singleton_self cs
  induction levels generalizing cs with
  | zero =>
    rw [← identifiers_trim]
    exact hwhole _ h
  | succ levels ih =>
    rw [← identifiers_trim]
    apply mem_identifiers_of_stripParentheses
    simp only [ofPlain] at h
    generalize stripParentheses (trim cs) = cs at h
    split at h
    · next f arg hcall => exact mem_identifiers_of_splitCall? hcall (ih h)
    · split at h
      · next s hsplit =>
        rw [eq_of_mainOperator? hsplit]
        rcases List.mem_append.mp h with h | h
        · exact mem_identifiers_of_left (isSeparator_symbol s.op) _ (ih h)
        · exact mem_identifiers_of_right (isSeparator_symbol s.op) _ (ih h)
      · split at h
        · cases h
        · split at h
          · exact hwhole _ h
          · split at h
            · split at h
              · exact hwhole _ h
              · exact mem_identifiers_of_right (by decide) [] (ih h)
            · split at h
              · exact hwhole _ h
              · exact mem_identifiers_of_right (by decide) [] (ih h)
            · exact hwhole _ h

end FilterPipeline.Formula
