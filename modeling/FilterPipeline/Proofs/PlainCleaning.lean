import FilterPipeline.Proofs.Operands

/-!
# Cleaning plain text

Cleaning has one pass for each notation besides plain infix text, and each pass looks for characters
that plain text does not have. Main statement: of a text that is plain once its fractions are
written out, cleaning only shrinks the blanks.
-/

namespace FilterPipeline.Formula

open Text

/-- A character that is not plain is none of those of a plain text. -/
theorem not_mem_of_plain {cs : List Char} (h : ∀ c ∈ cs, isPlainChar c = true) {c : Char}
    (hc : isPlainChar c = false) : c ∉ cs := by
  intro hmem
  rw [h c hmem] at hc
  cases hc

/-! ### Rules that do not apply -/

/-- A text stays as it is where a rule never applies. -/
theorem replaceBy_eq_self {rule : Rule} {cs : List Char}
    (h : ∀ c rest, c :: rest <:+ cs → rule (c :: rest) = none) : replaceBy rule cs = cs := by
  induction cs with
  | nil => rfl
  | cons c cs ih =>
    have hrest : replaceBy rule cs = cs := by
      apply ih
      intro d rest hsuffix
      exact h d rest (hsuffix.trans (List.suffix_cons c cs))
    rw [replaceBy, replaceByAfter, h c cs List.suffix_rfl]
    exact congrArg (List.cons c) hrest

private theorem afterStart?_eq_none {start cs : List Char} {c : Char} (hstart : c ∈ start)
    (hcs : c ∉ cs) :
    afterStart? start cs = none := by
  cases hafter : afterStart? start cs with
  | none => rfl
  | some rest =>
    rw [afterStart?_eq_some_iff] at hafter
    apply absurd _ hcs
    rw [hafter]
    exact List.mem_append_left rest hstart

private theorem replaceAll_eq_self {pattern written : String} {cs : List Char} {c : Char}
    (hpattern : c ∈ pattern.toList) (hcs : c ∉ cs) : replaceAll pattern written cs = cs := by
  apply replaceBy_eq_self
  intro d rest hsuffix
  have hrest : c ∉ d :: rest := fun hmem ↦ hcs (hsuffix.subset hmem)
  rw [literalRule, afterStart?_eq_none hpattern hrest]
  rfl

/-- A text in which no fixed text begins, whatever follows, is kept where the fixed text is
replaced. -/
theorem replaceAll_append {pattern written : String} {cs rest : List Char}
    (h : ∀ s, s ≠ [] → s <:+ cs → ¬ pattern.toList <+: s ++ rest) :
    replaceAll pattern written (cs ++ rest) = cs ++ replaceAll pattern written rest := by
  induction cs with
  | nil => rfl
  | cons c cs ih =>
    have hrest := ih fun s hs hsuffix ↦ h s hs (hsuffix.trans (List.suffix_cons c cs))
    have hnone : afterStart? pattern.toList (c :: (cs ++ rest)) = none := by
      cases hafter : afterStart? pattern.toList (c :: (cs ++ rest)) with
      | none => rfl
      | some later =>
        rw [afterStart?_eq_some_iff] at hafter
        exact absurd ⟨later, hafter.symm⟩ (h (c :: cs) (List.cons_ne_nil c cs) List.suffix_rfl)
    rw [replaceAll, List.cons_append, replaceBy, replaceByAfter, literalRule, hnone]
    exact congrArg (List.cons c) hrest

/-- A text without the first character of a fixed text is kept where the fixed text is replaced. -/
theorem replaceAll_append_of_not_mem {pattern written : String} {first : Char}
    {later cs : List Char} (hpattern : pattern.toList = first :: later) (h : first ∉ cs)
    (rest : List Char) :
    replaceAll pattern written (cs ++ rest) = cs ++ replaceAll pattern written rest := by
  apply replaceAll_append
  intro s hs hsuffix hbegins
  cases s with
  | nil => exact hs rfl
  | cons c s =>
    rw [hpattern, List.cons_append, List.cons_prefix_cons] at hbegins
    apply h
    rw [hbegins.1]
    exact hsuffix.subset List.mem_cons_self

/-- Where no command begins, there is no fraction. -/
theorem fractionRule_eq_none {expand : List Char → List Char} {c : Char} (hc : c ≠ '\\')
    (rest : List Char) : fractionRule expand (c :: rest) = none := by
  have hnone : fractionCommands.findSome? (fun command ↦
      (afterStart? command.toList (c :: rest)).map (command, ·)) = none := by
    rw [List.findSome?_eq_none_iff]
    intro command hcommand
    have hhead : command.toList.head? = some '\\' := by
      revert hcommand
      revert command
      decide
    cases hlist : command.toList with
    | nil =>
      rw [hlist] at hhead
      cases hhead
    | cons d name =>
      rw [hlist, List.head?_cons, Option.some.injEq] at hhead
      rw [hhead, afterStart?, if_neg (Ne.symm hc)]
      rfl
  rw [fractionRule, hnone]
  rfl

/-- A text without commands has no fractions to write out. -/
theorem expandFractions_eq_self {cs : List Char} (h : '\\' ∉ cs) (budget : Nat) :
    expandFractions budget cs = cs := by
  cases budget with
  | zero => rfl
  | succ budget =>
    apply replaceBy_eq_self
    intro c rest hsuffix
    apply fractionRule_eq_none
    rintro rfl
    exact h (hsuffix.subset List.mem_cons_self)

/-- A text without braces has no subscripts in braces. -/
theorem replaceBy_subscriptRule {cs : List Char} (h : '\x7b' ∉ cs) :
    replaceBy subscriptRule cs = cs := by
  apply replaceBy_eq_self
  intro c rest hsuffix
  have hbrace : '\x7b' ∉ c :: rest := fun hmem ↦ h (hsuffix.subset hmem)
  unfold subscriptRule
  split
  · next later heq =>
    rw [heq] at hbrace
    exact absurd (List.mem_cons_of_mem _ List.mem_cons_self) hbrace
  · rfl

/-- A text without backslashes has no functions that are written as commands. -/
theorem replaceBy_commandRule {cs : List Char} (h : '\\' ∉ cs) :
    replaceBy commandRule cs = cs := by
  apply replaceBy_eq_self
  intro c rest hsuffix
  unfold commandRule
  split
  · next later heq =>
    rw [heq] at hsuffix
    exact absurd (hsuffix.subset List.mem_cons_self) h
  · rfl

section Passes

variable {cs : List Char} (h : ∀ c ∈ cs, isPlainChar c = true)

include h

private theorem replaceDelimiters_eq_self : replaceDelimiters cs = cs := by
  have hspecial : delimiters.all (fun d ↦ d.1.toList.any fun c ↦ !isPlainChar c) = true := by
    decide
  apply List.foldlRecOn (motive := (· = cs)) delimiters _ rfl
  rintro _ rfl d hd
  obtain ⟨c, hc, hplain⟩ := List.any_eq_true.mp (List.all_eq_true.mp hspecial d hd)
  rw [Bool.not_eq_true'] at hplain
  exact replaceAll_eq_self hc (not_mem_of_plain h hplain)

/-- Plain text has no bars, so it is written as it stands. -/
theorem foldl_step_of_plain (b : Bars) :
    cs.foldl Bars.step b = ⟨cs.reverse ++ b.written, b.pending⟩ := by
  induction cs generalizing b with
  | nil => rfl
  | cons c cs ih =>
    rw [List.forall_mem_cons] at h
    have hne : ∀ {d : Char}, isPlainChar d = false → c ≠ d := by
      rintro d hd rfl
      rw [h.1] at hd
      cases hd
    rw [List.foldl_cons, Bars.step, if_neg (hne (by decide)), if_neg (hne (by decide)),
      if_neg (hne (by decide)), ih h.2, List.reverse_cons, List.append_assoc,
      List.singleton_append]

private theorem unifyBars_eq_self : unifyBars cs = cs := by
  rw [unifyBars, foldl_step_of_plain h]
  simp

/-- Plain text has only one kind of bracket. -/
theorem map_toParenthesis_eq_self : cs.map toParenthesis = cs := by
  conv => rhs; rw [← List.map_id cs]
  apply List.map_congr_left
  intro c hc
  have hne : ∀ {d : Char}, isPlainChar d = false → c ≠ d := by
    rintro d hd rfl
    rw [h c hc] at hd
    cases hd
  have hopening : ¬ (c = '\x7b' ∨ c = '[') := not_or.mpr ⟨hne (by decide), hne (by decide)⟩
  have hclosing : ¬ (c = '\x7d' ∨ c = ']') := not_or.mpr ⟨hne (by decide), hne (by decide)⟩
  rw [toParenthesis, if_neg hopening, if_neg hclosing, id]

end Passes

/-- Of a text that is plain once its fractions are written out, cleaning only shrinks the blanks. -/
theorem cleanWithin_of_plain {limit : Nat} {cs plain : List Char}
    (hexpand : expandFractions limit cs = plain) (h : ∀ c ∈ plain, isPlainChar c = true) :
    cleanWithin limit cs = trim (collapseBlanks false plain) := by
  rw [cleanWithin, hexpand, replaceBy_subscriptRule (not_mem_of_plain h (by decide)),
    replaceDelimiters_eq_self h, replaceBy_commandRule (not_mem_of_plain h (by decide)),
    unifyBars_eq_self h, map_toParenthesis_eq_self h]

/-! ### Shrinking blanks -/

/-- Shrinking blanks leaves all other characters where they are. -/
theorem collapseBlanks_append_cons {c : Char} (hc : isBlank c = false) (afterBlank : Bool)
    (before after : List Char) :
    collapseBlanks afterBlank (before ++ c :: after) =
      collapseBlanks afterBlank before ++ c :: collapseBlanks false after := by
  induction before generalizing afterBlank with
  | nil => simp [collapseBlanks, hc]
  | cons d before ih =>
    simp only [List.cons_append, collapseBlanks, ih]
    split
    · split <;> rfl
    · rfl

/-- Shrinking blanks leaves parentheses where they are. -/
theorem collapseBlanks_enclosed (start cs : List Char) (afterBlank : Bool) :
    collapseBlanks afterBlank (start ++ ('(' :: cs ++ [')'])) =
      collapseBlanks afterBlank start ++ ('(' :: collapseBlanks false cs ++ [')']) := by
  rw [List.cons_append, collapseBlanks_append_cons (by decide),
    collapseBlanks_append_cons (by decide), collapseBlanks, List.cons_append]

/-- A text without blanks stays as it is. -/
theorem collapseBlanks_eq_self {cs : List Char} (h : ∀ c ∈ cs, isBlank c = false)
    (afterBlank : Bool) : collapseBlanks afterBlank cs = cs := by
  induction cs generalizing afterBlank with
  | nil => rfl
  | cons c cs ih =>
    rw [List.forall_mem_cons] at h
    rw [collapseBlanks, h.1, if_neg Bool.false_ne_true, ih h.2]

/-- Spaces before a text shrink to spaces. -/
theorem collapseBlanks_spaces_append (n : Nat) (cs : List Char) (afterBlank : Bool) :
    ∃ m later, collapseBlanks afterBlank (List.replicate n ' ' ++ cs) =
      List.replicate m ' ' ++ collapseBlanks later cs := by
  induction n generalizing afterBlank with
  | zero => exact ⟨0, afterBlank, rfl⟩
  | succ n ih =>
    obtain ⟨m, later, hshrunk⟩ := ih true
    have hspace : isBlank ' ' = true := by decide
    rw [List.replicate_succ, List.cons_append, collapseBlanks, hspace, if_pos rfl, hshrunk]
    cases afterBlank with
    | true => exact ⟨m, later, rfl⟩
    | false => exact ⟨m + 1, later, rfl⟩

/-- Spaces behind a text shrink to spaces. -/
theorem collapseBlanks_append_spaces (cs : List Char) (n : Nat) (afterBlank : Bool) :
    ∃ m, collapseBlanks afterBlank (cs ++ List.replicate n ' ') =
      collapseBlanks afterBlank cs ++ List.replicate m ' ' := by
  induction cs generalizing afterBlank with
  | nil =>
    obtain ⟨m, later, hshrunk⟩ := collapseBlanks_spaces_append n [] afterBlank
    rw [List.append_nil, collapseBlanks, List.append_nil] at hshrunk
    exact ⟨m, hshrunk⟩
  | cons c cs ih =>
    simp only [List.cons_append, collapseBlanks]
    split
    · split
      · exact ih true
      · obtain ⟨m, hshrunk⟩ := ih true
        exact ⟨m, by rw [hshrunk, List.cons_append]⟩
    · obtain ⟨m, hshrunk⟩ := ih false
      exact ⟨m, by rw [hshrunk, List.cons_append]⟩

end FilterPipeline.Formula
