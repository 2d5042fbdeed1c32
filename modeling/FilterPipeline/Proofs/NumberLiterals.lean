import FilterPipeline.Proofs.PlainCleaning
import FilterPipeline.Proofs.PlainNumerals
import FilterPipeline.Proofs.PlainReading

/-!
# Number literals

A text is searched for an operator before it is tried as a number, so the search has to pass over
the signs of a number. It tells the sign of an exponent by looking backwards for a mantissa, which
it takes to end with a digit. Main statement: a number is read as one, alone and behind an operator,
exactly when it does not have the sign of its exponent behind a point.
-/

namespace FilterPipeline

namespace Numeral

/-- A text that spells a numeral with one of the two letters before its exponent. -/
def IsSpelledBy (n : Numeral) (cs : List Char) : Prop :=
  n.IsLiteral ∧ ∃ letter, (letter = 'e' ∨ letter = 'E') ∧ cs = n.literalText letter

/-- A numeral whose mantissa ends with the point and whose exponent has a sign. -/
def HasSignBehindPoint (n : Numeral) : Prop :=
  n.fraction = some [] ∧ ∃ sign digits, n.exponent = some (some sign, digits)

/-! ### What is admitted as a number -/

/-- What is taken as a sign is one, and stood in front of the rest. -/
theorem eq_of_takeSign {cs rest : List Char} {sign : Option Char} (h : takeSign cs = (sign, rest)) :
    cs = sign.toList ++ rest ∧ ∀ c, sign = some c → c = '+' ∨ c = '-' := by
  unfold takeSign at h
  split at h
  · next c cs =>
    split at h
    · next hc =>
      obtain ⟨rfl, rfl⟩ := Prod.mk.inj h
      rw [Bool.or_eq_true, beq_iff_eq, beq_iff_eq] at hc
      refine ⟨rfl, ?_⟩
      rintro _ ⟨⟩
      exact hc
    · obtain ⟨rfl, rfl⟩ := Prod.mk.inj h
      exact ⟨rfl, by simp⟩
  · obtain ⟨rfl, rfl⟩ := Prod.mk.inj h
    exact ⟨rfl, by simp⟩

private theorem eq_of_readExponent? {cs : List Char} {exponent : Option (Option Char × List Char)}
    (h : readExponent? cs = some exponent) :
    (∀ sign digits, exponent = some (sign, digits) →
      (∀ c, sign = some c → c = '+' ∨ c = '-') ∧ digits ≠ [] ∧ digits.all Char.isDigit = true) ∧
    ∃ letter, (letter = 'e' ∨ letter = 'E') ∧
      ∀ sign whole fraction, cs = exponentText letter ⟨sign, whole, fraction, exponent⟩ := by
  cases cs with
  | nil =>
    cases h
    exact ⟨by simp, 'e', .inl rfl, fun _ _ _ ↦ rfl⟩
  | cons letter cs =>
    rw [readExponent?] at h
    generalize htake : takeSign cs = taken at h
    obtain ⟨sign, digits⟩ := taken
    obtain ⟨rfl, hsign⟩ := eq_of_takeSign htake
    dsimp only at h
    split at h
    · next hparts =>
      cases h
      simp only [Bool.and_eq_true, Bool.or_eq_true, beq_iff_eq, Bool.not_eq_true',
        List.isEmpty_eq_false_iff] at hparts
      refine ⟨?_, letter, hparts.1.1, fun _ _ _ ↦ rfl⟩
      rintro _ _ ⟨⟩
      exact ⟨hsign, hparts.1.2, hparts.2⟩
    · cases h

private theorem isSpelledBy_of_read? {cs : List Char} {n : Numeral} (h : read? cs = some n)
    (hsign : n.sign ≠ some '+') (hfilled : n.hasDigits = true) : n.IsSpelledBy cs := by
  rw [read?] at h
  generalize htake : takeSign cs = taken at h
  obtain ⟨sign, rest⟩ := taken
  obtain ⟨rfl, hsigns⟩ := eq_of_takeSign htake
  have hall : ∀ cs : List Char, (cs.takeWhile Char.isDigit).all Char.isDigit = true :=
    fun cs ↦ List.all_takeWhile
  have hminus : n.sign = sign → n.sign = none ∨ n.sign = some '-' := by
    rintro rfl
    cases hcases : n.sign with
    | none => exact .inl rfl
    | some c =>
      rcases hsigns c hcases with rfl | rfl
      · exact absurd hcases hsign
      · exact .inr rfl
  have hrest := List.takeWhile_append_dropWhile (p := Char.isDigit) (l := rest)
  dsimp only at h
  split at h
  · next more hmore =>
    obtain ⟨exponent, hexponent, rfl⟩ := Option.map_eq_some_iff.mp h
    obtain ⟨hparts, letter, hletter, htext⟩ := eq_of_readExponent? hexponent
    refine ⟨⟨hminus rfl, hall rest, ?_, hfilled, hparts⟩, letter, hletter, ?_⟩
    · rintro _ ⟨⟩
      exact hall more
    · conv => lhs; rw [← hrest, hmore,
        ← List.takeWhile_append_dropWhile (p := Char.isDigit) (l := more)]
      rw [literalText, ← htext, plainText, magnitudeText]
      simp
  · obtain ⟨exponent, hexponent, rfl⟩ := Option.map_eq_some_iff.mp h
    obtain ⟨hparts, letter, hletter, htext⟩ := eq_of_readExponent? hexponent
    refine ⟨⟨hminus rfl, hall rest, by simp, hfilled, hparts⟩, letter, hletter, ?_⟩
    conv => lhs; rw [← hrest]
    rw [literalText, ← htext, plainText, magnitudeText]
    simp

end Numeral

namespace Formula

open Text Numeral

/-- A text is admitted as a number exactly when it spells one. -/
theorem numberLiteral?_eq_some_iff {cs : List Char} {x : Double} :
    numberLiteral? cs = some x ↔ ∃ n : Numeral, n.IsSpelledBy cs ∧ n.toDouble = x := by
  constructor
  · intro h
    simp only [numberLiteral?, Option.bind_eq_bind, Option.bind_eq_some_iff] at h
    obtain ⟨n, hread, h⟩ := h
    split at h
    · next hparts =>
      cases h
      rw [Bool.and_eq_true, bne_iff_ne] at hparts
      exact ⟨n, isSpelledBy_of_read? hread hparts.1 hparts.2, rfl⟩
    · cases h
  · rintro ⟨n, ⟨hn, letter, hletter, rfl⟩, rfl⟩
    have hsign : (n.sign != some '+') = true := by
      rcases hn.sign with hsign | hsign
      · rw [hsign]
        decide
      · rw [hsign]
        decide
    rw [numberLiteral?, hn.read?_literalText hletter]
    simp only [Option.bind_eq_bind, Option.bind_some, hsign, hn.filled, Bool.and_self, if_true]

/-! ### The signs of a number -/

section Signs

variable {n : Numeral} {letter : Char}

/-- The sign of an exponent is told from an operator exactly where the mantissa ends with a
digit. -/
theorem isSignAfter_exponent (h : n.IsLiteral) (hletter : letter = 'e' ∨ letter = 'E') :
    isSignAfter (n.plainText ++ [letter]).reverse = true ↔ n.fraction ≠ some [] := by
  obtain ⟨before, d, htext, hd⟩ := h.exists_last
  -- Walking back over digits and points ends at the sign of the number or at its start.
  have hback : ((before.reverse ++ n.sign.toList).dropWhile fun c ↦ c.isDigit || c == '.').head?.any
      (fun c ↦ c.isAlphanum || c == '_') = false := by
    rw [List.dropWhile_append_of_pos]
    · rcases h.sign with hsign | hsign <;> rw [hsign] <;> decide
    · intro c hc
      rw [Bool.or_eq_true, beq_iff_eq]
      apply h.of_mem_magnitudeText
      rw [htext]
      exact List.mem_append_left _ (List.mem_reverse.mp hc)
  have hpart : ((d :: (before.reverse ++ n.sign.toList)).dropWhile fun c ↦
      c.isDigit || c == '.') =
        (before.reverse ++ n.sign.toList).dropWhile fun c ↦ c.isDigit || c == '.' := by
    have hmem : d ∈ n.magnitudeText := by
      rw [htext]
      exact List.mem_append_right before List.mem_cons_self
    rw [List.dropWhile_cons, if_pos]
    rw [Bool.or_eq_true, beq_iff_eq]
    exact h.of_mem_magnitudeText hmem
  have hreverse : (n.plainText ++ [letter]).reverse =
      letter :: d :: (before.reverse ++ n.sign.toList) := by
    rcases h.sign with hsign | hsign <;> simp [plainText, htext, hsign]
  rw [hreverse, isSignAfter, ← hd]
  rcases hletter with rfl | rfl <;> simp [hpart, hback]

private theorem symbol_not_mem_magnitudeText (h : n.IsLiteral) (op : BinaryOp) :
    op.symbol ∉ n.magnitudeText := by
  intro hmem
  have hcases := h.of_mem_magnitudeText hmem
  revert hcases
  cases op <;> decide

/-- Of what stands in front of the exponent of a number only the first character can be one of an
operator, and there it is a sign. -/
theorem symbol_plainText_cases (h : n.IsLiteral) {tail left right : List Char} {op : BinaryOp}
    (htext : n.plainText ++ tail = left ++ op.symbol :: right) :
    (op.isSign && isSignAfter left.reverse) = true ∨
      ∃ l, left = n.plainText ++ l ∧ tail = l ++ op.symbol :: right := by
  rcases symbol_append_cases htext with ⟨r, hplain, -⟩ | hbehind
  · left
    rcases symbol_append_cases hplain with ⟨r', hsign, -⟩ | ⟨l, -, hmagnitude⟩
    · rcases h.sign with hnone | hminus
      · rw [hnone, Option.toList_none] at hsign
        simp at hsign
      · rw [hminus, Option.toList_some] at hsign
        exact isSign_of_minus_spaces 0 left op r' hsign
    · apply absurd _ (symbol_not_mem_magnitudeText h op)
      rw [hmagnitude]
      exact List.mem_append_right l List.mem_cons_self
  · exact .inr hbehind

/-- The characters of a number are plain and none of them is a parenthesis or a blank. -/
theorem isPlainChar_of_mem_literalText (h : n.IsLiteral) (hletter : letter = 'e' ∨ letter = 'E')
    {c : Char} (hc : c ∈ n.literalText letter) :
    isPlainChar c = true ∧ c ≠ '(' ∧ c ≠ ')' ∧ isBlank c = false := by
  have hdigit : ∀ {c : Char}, c.isDigit = true →
      isPlainChar c = true ∧ c ≠ '(' ∧ c ≠ ')' ∧ isBlank c = false := by
    intro c hc
    obtain ⟨hplain, hopening, hclosing⟩ :=
      isPlainChar_of_isIdentifierChar (isIdentifierChar_of_isDigit hc)
    exact ⟨hplain, hopening, hclosing,
      not_isBlank_of_isIdentifierChar (isIdentifierChar_of_isDigit hc)⟩
  rw [literalText, List.mem_append] at hc
  rcases hc with hc | hc
  · rcases h.of_mem_plainText hc with rfl | hc | rfl
    · decide
    · exact hdigit hc
    · decide
  · rw [exponentText] at hc
    split at hc
    · cases hc
    · next sign digits hsome =>
      obtain ⟨hsign, -, hdigits⟩ := h.exponent sign digits hsome
      rw [List.cons_append, List.mem_cons, List.mem_append, Option.mem_toList] at hc
      rcases hc with rfl | hc | hc
      · rcases hletter with rfl | rfl <;> decide
      · rcases hsign c hc with rfl | rfl <;> decide
      · exact hdigit (List.all_eq_true.mp hdigits c hc)

/-- A number ends with a digit or with the point. -/
theorem exists_last_literalText (h : n.IsLiteral) (letter : Char) :
    ∃ before d, n.literalText letter = before ++ [d] ∧ (d.isDigit = true ∨ d = '.') := by
  rw [literalText, exponentText]
  split
  · obtain ⟨before, d, htext, -⟩ := h.exists_last
    refine ⟨n.sign.toList ++ before, d, by rw [plainText, htext]; simp, h.of_mem_magnitudeText ?_⟩
    rw [htext]
    exact List.mem_append_right before List.mem_cons_self
  · next sign digits hsome =>
    obtain ⟨-, hne, hdigits⟩ := h.exponent sign digits hsome
    refine ⟨n.plainText ++ letter :: (sign.toList ++ digits.dropLast), digits.getLast hne, ?_,
      .inl (List.all_eq_true.mp hdigits _ (List.getLast_mem hne))⟩
    conv => lhs; rw [← List.dropLast_concat_getLast hne]
    simp

private theorem isSignAfter_digit_or_point {d : Char} (hd : d.isDigit = true ∨ d = '.')
    (before : List Char) : isSignAfter (d :: before) = false := by
  rcases hd with hd | rfl
  · apply isSignAfter_cons (ne_of_isDigit hd (by decide)) _ (ne_of_isDigit hd (by decide))
      (ne_of_isDigit hd (by decide))
    rw [← Bool.not_eq_true, List.contains_iff_mem]
    exact not_mem_of_all_not (by decide) hd
  · exact isSignAfter_cons (by decide) (by decide) (by decide) (by decide) _

/-- An operator's character is neither a digit nor the letter of an exponent. -/
theorem symbol_not_exponent (op : BinaryOp) :
    op.symbol.isDigit = false ∧ ¬ (op.symbol = 'e' ∨ op.symbol = 'E') := by
  cases op <;> decide

private theorem symbol_exponentText_cases (h : n.IsLiteral) (hletter : letter = 'e' ∨ letter = 'E')
    {left right : List Char} {op : BinaryOp}
    (htext : n.exponentText letter = left ++ op.symbol :: right) :
    left = [letter] ∧ op.isSign = true ∧
      ∃ digits, n.exponent = some (some op.symbol, digits) := by
  rw [exponentText] at htext
  split at htext
  · simp at htext
  · next sign digits hsome =>
    obtain ⟨hsign, -, hdigits⟩ := h.exponent sign digits hsome
    cases left with
    | nil =>
      have hop : letter = op.symbol := (List.cons.inj htext).1
      rw [hop] at hletter
      exact absurd hletter (symbol_not_exponent op).2
    | cons c left =>
      obtain ⟨hhead, hrest⟩ := List.cons.inj htext
      subst hhead
      rcases symbol_append_cases hrest with ⟨r, hsignText, -⟩ | ⟨l, -, hdigitText⟩
      · cases sign with
        | none => simp at hsignText
        | some d =>
          cases left with
          | cons d left => simp at hsignText
          | nil =>
            have hop : d = op.symbol := (List.cons.inj hsignText).1
            subst hop
            refine ⟨rfl, ?_, digits, hsome⟩
            have hcases := hsign _ rfl
            revert hcases
            cases op <;> decide
      · have hdigit : op.symbol.isDigit = true := by
          apply List.all_eq_true.mp hdigits
          rw [hdigitText]
          exact List.mem_append_right l List.mem_cons_self
        rw [(symbol_not_exponent op).1] at hdigit
        cases hdigit

/-- A number binds as one unless it has the sign of its exponent behind the point. -/
theorem isOperand_literalText (h : n.IsLiteral) (hletter : letter = 'e' ∨ letter = 'E')
    (hpoint : ¬ n.HasSignBehindPoint) : IsOperand 4 (n.literalText letter) := by
  obtain ⟨before, d, hlast, hd⟩ := exists_last_literalText h letter
  have hplain : ∀ c ∈ n.literalText letter, isPlainChar c = true ∧ c ≠ '(' ∧ c ≠ ')' ∧
      isBlank c = false := fun c hc ↦ isPlainChar_of_mem_literalText h hletter hc
  have hmem : d ∈ n.literalText letter := by
    rw [hlast]
    exact List.mem_append_right before List.mem_cons_self
  apply IsOperand.of_signs
  · intro c hc
    obtain ⟨hchar, hopening, hclosing, -⟩ := hplain c hc
    exact ⟨hchar, hopening, hclosing⟩
  · intro left op right htext
    rcases symbol_plainText_cases h htext with hsign | ⟨l, rfl, hexponent⟩
    · exact hsign
    · obtain ⟨rfl, hop, digits, hsome⟩ := symbol_exponentText_cases h hletter hexponent
      rw [hop, Bool.true_and, isSignAfter_exponent h hletter]
      exact fun hfraction ↦ hpoint ⟨hfraction, _, digits, hsome⟩
  · rw [allBlank, List.all_eq_false]
    refine ⟨d, hmem, ?_⟩
    rw [(hplain d hmem).2.2.2]
    exact Bool.false_ne_true
  · rw [hlast, List.reverse_append, List.reverse_singleton, List.singleton_append]
    exact isSignAfter_digit_or_point hd _

/-- A number with the sign of its exponent behind the point is two operands around that sign. -/
theorem exists_operands_of_signBehindPoint (h : n.IsLiteral)
    (hletter : letter = 'e' ∨ letter = 'E') (hpoint : n.HasSignBehindPoint) :
    ∃ op digits, op.isSign = true ∧
      n.literalText letter = (n.plainText ++ [letter]) ++ BinaryOp.symbol op :: digits ∧
        IsOperand 4 (n.plainText ++ [letter]) ∧ IsOperand 4 digits := by
  obtain ⟨hfraction, c, digits, hsome⟩ := hpoint
  obtain ⟨hsign, hne, hdigits⟩ := h.exponent _ digits hsome
  obtain ⟨op, hop, hsymbol⟩ : ∃ op : BinaryOp, op.isSign = true ∧ op.symbol = c := by
    rcases hsign c rfl with rfl | rfl
    · exact ⟨.add, rfl, rfl⟩
    · exact ⟨.subtract, rfl, rfl⟩
  have htext : n.literalText letter = (n.plainText ++ [letter]) ++ op.symbol :: digits := by
    rw [literalText, exponentText, hsome, hsymbol]
    simp
  refine ⟨op, digits, hop, htext, ?_, ?_⟩
  · apply IsOperand.of_signs
    · intro d hd
      obtain ⟨hplain, hopening, hclosing, -⟩ : isPlainChar d = true ∧ d ≠ '(' ∧ d ≠ ')' ∧
          isBlank d = false := by
        apply isPlainChar_of_mem_literalText h hletter
        rw [htext]
        exact List.mem_append_left _ hd
      exact ⟨hplain, hopening, hclosing⟩
    · intro left op' right hmantissa
      rcases symbol_plainText_cases h hmantissa with hsign | ⟨l, -, hl⟩
      · exact hsign
      · have hmem : op'.symbol ∈ [letter] := by
          rw [hl]
          exact List.mem_append_right l List.mem_cons_self
        rw [← List.mem_singleton.mp hmem] at hletter
        exact absurd hletter (symbol_not_exponent op').2
    · have hblank : isBlank letter = false := by rcases hletter with rfl | rfl <;> decide
      rw [allBlank, List.all_append, List.all_cons, hblank, Bool.false_and, Bool.and_false]
    · rw [← Bool.not_eq_true, isSignAfter_exponent h hletter]
      exact not_not_intro hfraction
  · -- Digits alone are a number without exponent.
    have hwhole : (Numeral.mk none digits none none).IsPlain :=
      ⟨.inl rfl, hne, hdigits, by simp, rfl⟩
    have hoperand := isOperand_literalText hwhole.isLiteral (.inl rfl)
      (by simp [HasSignBehindPoint])
    rw [hwhole.literalText_eq, plainText, magnitudeText, Option.toList_none, List.nil_append,
      List.append_nil] at hoperand
    exact hoperand

end Signs

/-! ### Reading a number -/

section Reading

variable {n : Numeral} {letter : Char}

/-- The text of a number is trimmed. -/
theorem isTrimmed_literalText (h : n.IsLiteral) (hletter : letter = 'e' ∨ letter = 'E') :
    IsTrimmed (n.literalText letter) :=
  .of_forall fun _ hc ↦ (isPlainChar_of_mem_literalText h hletter hc).2.2.2

/-- A number is read as one unless it has the sign of its exponent behind the point; then it is
taken apart at that sign. -/
theorem ofPlain_literalText_iff (h : n.IsLiteral) (hletter : letter = 'e' ∨ letter = 'E')
    (levels : Nat) : ofPlain (levels + 1) (n.literalText letter) = .number n.toDouble ↔
      ¬ n.HasSignBehindPoint := by
  have htrimmed := isTrimmed_literalText h hletter
  constructor
  · intro hread hpoint
    obtain ⟨op, digits, -, htext, hmantissa, hdigits⟩ :=
      exists_operands_of_signBehindPoint h hletter hpoint
    have hadmits : op.Admits 4 4 := by cases op <;> decide
    rw [htext] at hread htrimmed
    rw [ofPlain_binary levels hadmits hmantissa hdigits htrimmed] at hread
    cases hread
  · intro hpoint
    have hopening : '(' ∉ n.literalText letter :=
      fun hmem ↦ (isPlainChar_of_mem_literalText h hletter hmem).2.1 rfl
    have hnumber : numberLiteral? (n.literalText letter) = some n.toDouble :=
      numberLiteral?_eq_some_iff.mpr ⟨n, ⟨h, letter, hletter, rfl⟩, rfl⟩
    exact ofPlain_number (isOperand_literalText h hletter hpoint) hopening htrimmed hnumber levels

/-- A number behind an operator is read as the right operand of a field unless it has the sign of
its exponent behind the point; then the whole text is taken apart at that sign. -/
theorem ofPlain_field_literalText_iff (h : n.IsLiteral) (hletter : letter = 'e' ∨ letter = 'E')
    {name : List Char} (hname : isIdentifier name = true) (op : BinaryOp)
    (before after levels : Nat) :
    ofPlain (levels + 2) (name ++ List.replicate before ' ' ++
        op.symbol :: (List.replicate after ' ' ++ n.literalText letter)) =
      .binary op (.field (String.ofList name)) (.number n.toDouble) ↔ ¬ n.HasSignBehindPoint := by
  have hadmits : op.Admits 4 4 := by cases op <;> decide
  have hnameOperand : IsOperand 4 name := isOperand_of_isIdentifier hname
  have hnameTrimmed : IsTrimmed name := .of_forall fun c hc ↦
    not_isBlank_of_isIdentifierChar (isIdentifierChar_of_isIdentifier hname c hc)
  have hleft := hnameOperand.append_spaces before
  have htrimmed : IsTrimmed (name ++ List.replicate before ' ' ++
      op.symbol :: (List.replicate after ' ' ++ n.literalText letter)) := by
    obtain ⟨start, d, hlast, -⟩ := exists_last_literalText h letter
    have hne : n.literalText letter ≠ [] := by simp [hlast]
    have happend := hnameTrimmed.append (isTrimmed_literalText h hletter) hnameOperand.ne_nil hne
      (List.replicate before ' ' ++ op.symbol :: List.replicate after ' ')
    simpa using happend
  by_cases hpoint : n.HasSignBehindPoint
  · refine iff_of_false (fun hread ↦ ?_) (not_not_intro hpoint)
    obtain ⟨sign, digits, hsign, htext, hmantissa, hdigits⟩ :=
      exists_operands_of_signBehindPoint h hletter hpoint
    have hright := hmantissa.spaces_append after
    have hloose : sign.Admits op.precedence 4 := by
      revert hsign
      cases sign <;> cases op <;> decide
    have hmantissaTrimmed : IsTrimmed (n.plainText ++ [letter]) := by
      apply IsTrimmed.of_forall
      intro c hc
      apply (isPlainChar_of_mem_literalText h hletter _).2.2.2
      rw [htext]
      exact List.mem_append_left _ hc
    have hwhole : name ++ List.replicate before ' ' ++
        op.symbol :: (List.replicate after ' ' ++ n.literalText letter) =
          (name ++ List.replicate before ' ' ++
            op.symbol :: (List.replicate after ' ' ++ (n.plainText ++ [letter]))) ++
              sign.symbol :: digits := by
      rw [htext]
      simp
    rw [hwhole] at hread htrimmed
    rw [ofPlain_binary (levels + 1) hloose (.binary hadmits hleft hright) hdigits htrimmed,
      ofPlain_binary levels hadmits hleft hright
        (hnameOperand.isTrimmed hmantissa hnameTrimmed hmantissaTrimmed before after)] at hread
    cases hread
  · refine iff_of_true ?_ hpoint
    have hnumber := isOperand_literalText h hletter hpoint
    rw [ofPlain_binary (levels + 1) hadmits hleft (hnumber.spaces_append after) htrimmed,
      ofPlain_append_spaces, ofPlain_spaces_append, ofPlain_field hname,
      (ofPlain_literalText_iff h hletter levels).mpr hpoint]

private theorem isPlainChar_of_mem_append (h : n.IsLiteral) (hletter : letter = 'e' ∨ letter = 'E')
    {name : List Char} (hname : isIdentifier name = true) (op : BinaryOp) (before after : Nat) :
    ∀ c ∈ name ++ List.replicate before ' ' ++
      op.symbol :: (List.replicate after ' ' ++ n.literalText letter), isPlainChar c = true := by
  have hspace : ∀ {k : Nat} {c : Char}, c ∈ List.replicate k ' ' → isPlainChar c = true := by
    intro k c hc
    rw [List.eq_of_mem_replicate hc]
    decide
  intro c hc
  simp only [List.mem_append, List.mem_cons] at hc
  rcases hc with (hc | hc) | rfl | hc | hc
  · exact (isOperand_of_isIdentifier hname).plain c hc
  · exact hspace hc
  · cases op <;> decide
  · exact hspace hc
  · exact (isPlainChar_of_mem_literalText h hletter hc).1

/-- A text that spells a number is read as this number, alone and as the right operand of a field,
unless the sign of its exponent stands behind the point of its mantissa. -/
theorem parse_literal_iff {literal : String} (h : n.IsSpelledBy literal.toList) :
    (parse literal = .number n.toDouble ↔ ¬ n.HasSignBehindPoint) ∧
      ∀ (name : String) (op : BinaryOp) (before after : Nat), isIdentifier name.toList = true →
        (parse (String.ofList (name.toList ++ List.replicate before ' ' ++
            op.symbol :: (List.replicate after ' ' ++ literal.toList))) =
          .binary op (.field name) (.number n.toDouble) ↔ ¬ n.HasSignBehindPoint) := by
  obtain ⟨hn, letter, hletter, htext⟩ := h
  have hchars : ∀ c ∈ n.literalText letter, isPlainChar c = true ∧ isBlank c = false :=
    fun c hc ↦ ⟨(isPlainChar_of_mem_literalText hn hletter hc).1,
      (isPlainChar_of_mem_literalText hn hletter hc).2.2.2⟩
  have hclean : ∀ {cs : List Char}, (∀ c ∈ cs, isPlainChar c = true) →
      parse (String.ofList cs) = ofPlain (defaultLimit + 1) (collapseBlanks false cs) := by
    intro cs hcs
    have hexpand := expandFractions_eq_self (not_mem_of_plain hcs (by decide)) defaultLimit
    rw [parse, parseWithin, String.toList_ofList, cleanWithin_of_plain hexpand hcs, ofPlain_trim]
  constructor
  · rw [← String.ofList_toList (s := literal), htext, hclean fun c hc ↦ (hchars c hc).1,
      collapseBlanks_eq_self fun c hc ↦ (hchars c hc).2]
    exact ofPlain_literalText_iff hn hletter defaultLimit
  · intro name op before after hname
    have hsymbol : isBlank op.symbol = false := by cases op <;> decide
    have hnameChars : ∀ c ∈ name.toList, isBlank c = false := fun c hc ↦
      not_isBlank_of_isIdentifierChar (isIdentifierChar_of_isIdentifier hname c hc)
    obtain ⟨m, hbefore⟩ := collapseBlanks_append_spaces name.toList before false
    obtain ⟨k, later, hafter⟩ :=
      collapseBlanks_spaces_append after (n.literalText letter) false
    rw [htext, hclean (isPlainChar_of_mem_append hn hletter hname op before after),
      collapseBlanks_append_cons hsymbol, hbefore, hafter, collapseBlanks_eq_self hnameChars,
      collapseBlanks_eq_self fun c hc ↦ (hchars c hc).2]
    have hread := ofPlain_field_literalText_iff hn hletter hname op m k (defaultLimit - 1)
    rw [String.ofList_toList] at hread
    exact hread

/-- A number without a digit before its point and with the sign of its exponent behind a digit. -/
def signedExponent : Numeral := ⟨some '-', [], some ['5'], some (some '-', ['3'])⟩

/-- It is read as one number behind a field that is spelled like the mantissa of a number and a
minus. -/
theorem parse_signedExponent :
    signedExponent.IsSpelledBy "-.5E-3".toList ∧ ¬ signedExponent.HasSignBehindPoint ∧
      parse "-.5E-3" = .number signedExponent.toDouble ∧
        parse "x2e -  -.5E-3" =
          .binary .subtract (.field "x2e") (.number signedExponent.toDouble) := by
  have hspelled : signedExponent.IsSpelledBy "-.5E-3".toList :=
    ⟨⟨.inr rfl, by decide, by decide, by decide, by simp [signedExponent]⟩, 'E', .inr rfl,
      by decide⟩
  have hpoint : ¬ signedExponent.HasSignBehindPoint := by
    simp [HasSignBehindPoint, signedExponent]
  obtain ⟨halone, hbehind⟩ := parse_literal_iff hspelled
  exact ⟨hspelled, hpoint, halone.mpr hpoint,
    (hbehind "x2e" .subtract 1 2 (by decide)).mpr hpoint⟩

/-- A number with the sign of its exponent behind the point of its mantissa. -/
def pointedMantissa : Numeral := ⟨none, ['1'], some [], some (some '-', ['5'])⟩

/-- It is read as a difference of a field and a number. -/
theorem parse_pointedMantissa :
    pointedMantissa.IsSpelledBy "1.e-5".toList ∧
      numberLiteral? "1.e-5".toList = some pointedMantissa.toDouble ∧
        parse "1.e-5" = .binary .subtract (.field "1.e") (.number (.ofInt 5)) ∧
          parse "1.e-5" ≠ .number pointedMantissa.toDouble := by
  have hspelled : pointedMantissa.IsSpelledBy "1.e-5".toList :=
    ⟨⟨.inl rfl, by decide, by decide, by decide, by simp [pointedMantissa]⟩, 'e', .inl rfl,
      by decide⟩
  have hread : parse "1.e-5" = .binary .subtract (.field "1.e") (.number (.ofInt 5)) := by
    decide +kernel
  refine ⟨hspelled, numberLiteral?_eq_some_iff.mpr ⟨_, hspelled, rfl⟩, hread, ?_⟩
  rw [hread]
  exact Formula.noConfusion

end Reading

end Formula
end FilterPipeline
