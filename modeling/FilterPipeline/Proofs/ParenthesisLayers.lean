import FilterPipeline.Proofs.BoundedReading

/-!
# Layers of parentheses

The parentheses around a text are taken off in one pass: the ones it begins with are paired with the
ones it ends with, and a stack tells which of these pairs belong together. Here they are taken off
the plain way, by looking for the partner of the first one and starting over with what is inside.
Main statement: on cleaned text both leave the same, however many layers there are, with spaces
between them or not, and whether or not the parentheses inside are balanced.
-/

namespace FilterPipeline.Formula

open Text

/-! ### Cleaned text -/

/-- A trimmed text whose only blank is the space. -/
structure IsCleaned (cs : List Char) : Prop where
  trimmed : trim cs = cs
  spaces : ∀ c ∈ cs, isBlank c = true → c = ' '

/-- Trimming makes a text without other blanks a cleaned one. -/
theorem isCleaned_trim {cs : List Char} (h : ∀ c ∈ cs, isBlank c = true → c = ' ') :
    IsCleaned (trim cs) where
  trimmed := trim_trim cs
  spaces c hc := h c ((trim_sublist cs).subset hc)

private theorem eq_space_of_mem_collapseBlanks {c : Char} {afterBlank : Bool} {cs : List Char}
    (hc : c ∈ collapseBlanks afterBlank cs) (hblank : isBlank c = true) : c = ' ' := by
  induction cs generalizing afterBlank with
  | nil => cases hc
  | cons d cs ih =>
    rw [collapseBlanks] at hc
    split at hc
    · split at hc
      · exact ih hc
      · rcases List.mem_cons.mp hc with hc | hc
        · exact hc
        · exact ih hc
    · next hd =>
      rcases List.mem_cons.mp hc with rfl | hc
      · exact absurd hblank hd
      · exact ih hc

/-- Cleaning leaves cleaned text. -/
theorem isCleaned_cleanWithin (limit : Nat) (cs : List Char) : IsCleaned (cleanWithin limit cs) :=
  isCleaned_trim fun _ hc hblank ↦ eq_space_of_mem_collapseBlanks hc hblank

private theorem isTrimmed_of_trim_eq {cs : List Char} (h : trim cs = cs) : IsTrimmed cs := by
  -- Blanks at the ends would be dropped, and the text would get shorter.
  have hends : ∀ before middle after : List Char, cs = before ++ middle ++ after →
      (∀ c ∈ before, isBlank c = true) → (∀ c ∈ after, isBlank c = true) →
      before.length + after.length = 0 := by
    intro before middle after hcs hbefore hafter
    have hlen := (trim_sublist middle).length_le
    rw [← trim_append hbefore hafter, ← hcs, h, hcs, List.length_append, List.length_append] at hlen
    omega
  constructor
  · intro c rest hcs
    rw [← Bool.not_eq_true]
    intro hc
    have hlen := hends [c] rest [] (by simpa using hcs) (by simpa using hc) (by simp)
    simp at hlen
  · intro before c hcs
    rw [← Bool.not_eq_true]
    intro hc
    have hlen := hends [] before [c] (by simpa using hcs) (by simp) (by simpa using hc)
    simp at hlen

/-! ### One layer after the other -/

/-- The text in the parentheses around the whole of a text, without the blanks at its ends: the text
begins with a parenthesis, and the one that closes it is the last character. -/
def unwrap? : List Char → Option (List Char)
  | '(' :: cs => do
    let (inside, after) ← splitClose '(' ')' 1 [] cs
    if after.isEmpty then some (trim inside) else none
  | _ => none

/-- A text is in parentheses when the last character closes the first one. -/
theorem unwrap?_eq_some_iff {cs t : List Char} :
    unwrap? cs = some t ↔
      ∃ inside, cs = '(' :: inside ++ [')'] ∧
        closingAt? '(' ')' 0 (inside ++ [')']) = some inside.length ∧ trim inside = t := by
  constructor
  · intro h
    rw [unwrap?.eq_def] at h
    split at h
    · next cs =>
      simp only [Option.bind_eq_bind, Option.bind_eq_some_iff] at h
      obtain ⟨⟨inside, after⟩, hsplit, h⟩ := h
      dsimp only at h
      split at h
      · next hafter =>
        rw [List.isEmpty_iff.mp hafter] at hsplit
        obtain ⟨rfl, hclose⟩ := splitClose_eq_some_nil_iff.mp hsplit
        exact ⟨inside, rfl, hclose, Option.some.inj h⟩
      · cases h
    · cases h
  · rintro ⟨inside, rfl, hclose, rfl⟩
    have hsplit := splitClose_eq_some_nil_iff.mpr ⟨rfl, hclose⟩
    simp only [List.cons_append, unwrap?, hsplit]
    rfl

private theorem length_lt_of_unwrap? {cs inside : List Char} (h : unwrap? cs = some inside) :
    inside.length < cs.length := by
  obtain ⟨inside, rfl, -, rfl⟩ := unwrap?_eq_some_iff.mp h
  have hlen := (trim_sublist inside).length_le
  simp only [List.length_append, List.length_cons, List.length_nil]
  omega

/-- A text without the parentheses around the whole of it, taken off one layer after the other. -/
def unwrapAll (cs : List Char) : List Char :=
  match _h : unwrap? cs with
  | some inside => unwrapAll inside
  | none => cs
termination_by cs.length
decreasing_by exact length_lt_of_unwrap? _h

variable {cs inside : List Char}

private theorem unwrapAll_of_unwrap? (h : unwrap? cs = some inside) :
    unwrapAll cs = unwrapAll inside := by
  rw [unwrapAll]
  split
  · next other hother => rw [Option.some.inj (h.symm.trans hother)]
  · next hnone => cases h.symm.trans hnone

private theorem unwrapAll_of_unwrap?_eq_none (h : unwrap? cs = none) : unwrapAll cs = cs := by
  rw [unwrapAll]
  split
  · next inside hinside => cases h.symm.trans hinside
  · rfl

/-! ### All layers in one pass -/

namespace IsCleaned

private theorem of_unwrap? (h : IsCleaned cs) (hinside : unwrap? cs = some inside) :
    IsCleaned inside := by
  obtain ⟨inside, rfl, -, rfl⟩ := unwrap?_eq_some_iff.mp hinside
  exact isCleaned_trim fun c hc ↦
    h.spaces c (List.mem_append_left _ (List.mem_cons_of_mem _ hc))

private theorem stripParentheses_of_unwrap? (h : IsCleaned cs)
    (hinside : unwrap? cs = some inside) :
    stripParentheses cs = stripParentheses inside := by
  obtain ⟨inside, rfl, hclose, rfl⟩ := unwrap?_eq_some_iff.mp hinside
  refine stripParentheses_enclosed (fun c hc ↦ h.spaces c ?_) hclose
  exact List.mem_append_left _ (List.mem_cons_of_mem _ hc)

private theorem stripParentheses_of_unwrap?_eq_none (h : IsCleaned cs) (hnone : unwrap? cs = none) :
    stripParentheses cs = cs := by
  have htrimmed := isTrimmed_of_trim_eq h.trimmed
  cases cs with
  | nil => rfl
  | cons c cs =>
    by_cases hc : c = '('
    · subst hc
      rcases List.eq_nil_or_concat cs with rfl | ⟨cs, d, rfl⟩
      · rfl
      · rw [List.concat_eq_append] at hnone htrimmed ⊢
        have hd : isBlank d = false := htrimmed.last ('(' :: cs) d rfl
        refine stripParentheses_of_closingAt? (ne_space_of_isBlank hd) fun hclose ↦ ?_
        have hsplit : splitClose '(' ')' 1 [] (cs ++ [d]) = some (cs, []) := by
          rw [splitClose_eq, hclose]
          simp
        simp [unwrap?, hsplit] at hnone
    · exact stripParentheses_of_head hc (ne_space_of_isBlank (htrimmed.first c cs rfl)) cs

/-- One pass takes off what is taken off layer by layer. -/
theorem stripParentheses_eq_unwrapAll (h : IsCleaned cs) : stripParentheses cs = unwrapAll cs := by
  induction cs using unwrapAll.induct with
  | case1 cs inside hinside ih =>
    rw [h.stripParentheses_of_unwrap? hinside, unwrapAll_of_unwrap? hinside,
      ih (h.of_unwrap? hinside)]
  | case2 cs hnone =>
    rw [h.stripParentheses_of_unwrap?_eq_none hnone, unwrapAll_of_unwrap?_eq_none hnone]

end IsCleaned

/-- Taking the wrapping parentheses off a cleaned text in one pass is taking them off layer by layer
for as long as there are any, and the part that the pass takes begins no later than it ends, within
the text. -/
theorem stripParentheses_by_layers (h : IsCleaned cs) :
    stripParentheses cs = unwrapAll cs ∧
      ∀ opening closing, (wrappingPairs cs).getLast? = some (opening, closing) →
        stripParentheses cs = trim ((cs.take closing).drop (opening + 1)) ∧
          opening + 1 ≤ closing ∧ closing ≤ cs.length := by
  refine ⟨h.stripParentheses_eq_unwrapAll, fun opening closing hlast ↦ ?_⟩
  obtain ⟨hlt, -, hclosing⟩ := of_mem_wrappingPairs (List.mem_of_getLast? hlast)
  refine ⟨?_, hlt, Nat.le_of_lt (List.getElem?_eq_some_iff.mp hclosing).1⟩
  rw [stripParentheses, hlast]

/-- Three layers around two groups, with spaces between them. -/
theorem bracketed_sum_by_layers :
    cleanWithin defaultLimit "\\left[ ((  (a)+\x7bb\x7d) )\\right]".toList =
        "( (( (a)+(b)) ))".toList ∧
      IsCleaned "( (( (a)+(b)) ))".toList ∧
        stripParentheses "( (( (a)+(b)) ))".toList = unwrapAll "( (( (a)+(b)) ))".toList ∧
          stripParentheses "( (( (a)+(b)) ))".toList = "(a)+(b)".toList := by
  have htext : cleanWithin defaultLimit "\\left[ ((  (a)+\x7bb\x7d) )\\right]".toList =
      "( (( (a)+(b)) ))".toList := by
    decide
  have hcleaned : IsCleaned "( (( (a)+(b)) ))".toList := by
    rw [← htext]
    exact isCleaned_cleanWithin _ _
  exact ⟨htext, hcleaned, (stripParentheses_by_layers hcleaned).1, by decide⟩

-- Unbalanced text: a parenthesis too many behind, and one too many in front.
example : stripParentheses "( (a)) )".toList = "( (a)) )".toList := by decide

example : stripParentheses "((a)".toList = "((a)".toList := by decide

end FilterPipeline.Formula
