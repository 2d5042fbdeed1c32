import FilterPipeline.Number.Writing
import FilterPipeline.Proofs.ShortestDecimals

/-!
# Plain numerals

A numeral is read back from its text, and in running text finite values are written as numerals
without exponent. Main statement: `IsBinary64.exists_plainText`, what is written for a finite value
reads back as that value.
-/

namespace FilterPipeline

/-- A digit is none of the other characters. -/
theorem ne_of_isDigit {c d : Char} (hc : c.isDigit = true) (hd : d.isDigit = false) : c ≠ d := by
  rintro rfl
  rw [hc] at hd
  cases hd

/-- A digit is no letter. -/
theorem not_isAlpha_of_isDigit {c : Char} (h : c.isDigit = true) : c.isAlpha = false := by
  rw [← Bool.not_eq_true]
  intro halpha
  delta Char.isAlpha Char.isUpper Char.isLower at halpha
  simp only [Char.isDigit, Bool.or_eq_true, Bool.and_eq_true, decide_eq_true_eq] at halpha h
  rcases halpha with halpha | halpha
  · exact absurd (UInt32.le_trans halpha.1 h.2) (by decide)
  · exact absurd (UInt32.le_trans halpha.1 h.2) (by decide)

namespace Numeral

/-- A numeral as formulas admit it: a minus or no sign, digits on one side of a point at least, and
an exponent with digits if there is one. -/
structure IsLiteral (n : Numeral) : Prop where
  sign : n.sign = none ∨ n.sign = some '-'
  wholeDigits : n.whole.all Char.isDigit = true
  fractionDigits : ∀ digits, n.fraction = some digits → digits.all Char.isDigit = true
  filled : n.hasDigits = true
  exponent : ∀ sign digits, n.exponent = some (sign, digits) →
    (∀ c, sign = some c → c = '+' ∨ c = '-') ∧ digits ≠ [] ∧ digits.all Char.isDigit = true

/-- The text of a numeral without sign and exponent. -/
def magnitudeText (n : Numeral) : List Char :=
  n.whole ++ match n.fraction with
    | none => []
    | some digits => '.' :: digits

/-- The text of a numeral without exponent. -/
def plainText (n : Numeral) : List Char := n.sign.toList ++ n.magnitudeText

/-- The text of the exponent of a numeral behind a letter. -/
def exponentText (letter : Char) (n : Numeral) : List Char :=
  match n.exponent with
  | none => []
  | some (sign, digits) => letter :: sign.toList ++ digits

/-- The text of a numeral with a letter before its exponent. -/
def literalText (letter : Char) (n : Numeral) : List Char := n.plainText ++ n.exponentText letter

/-- A sign is told from what follows unless that begins with a sign. -/
theorem takeSign_append {sign : Option Char} (hsign : ∀ c, sign = some c → c = '+' ∨ c = '-')
    {rest : List Char} (hrest : ∀ c, rest.head? = some c → c ≠ '+' ∧ c ≠ '-') :
    takeSign (sign.toList ++ rest) = (sign, rest) := by
  cases sign with
  | some c =>
    have hc : (c == '+' || c == '-') = true := by
      rw [Bool.or_eq_true, beq_iff_eq, beq_iff_eq]
      exact hsign c rfl
    rw [Option.toList_some, List.singleton_append, takeSign, if_pos hc]
  | none =>
    cases rest with
    | nil => rfl
    | cons c rest =>
      obtain ⟨hplus, hminus⟩ := hrest c rfl
      have hc : ¬ (c == '+' || c == '-') = true := by
        rw [Bool.or_eq_true, beq_iff_eq, beq_iff_eq]
        exact not_or.mpr ⟨hplus, hminus⟩
      rw [Option.toList_none, List.nil_append, takeSign, if_neg hc]

namespace IsLiteral

variable {n : Numeral} {letter : Char}

/-- Behind its sign a numeral has digits and a point. -/
theorem of_mem_magnitudeText (h : n.IsLiteral) {c : Char} (hc : c ∈ n.magnitudeText) :
    c.isDigit = true ∨ c = '.' := by
  rw [magnitudeText, List.mem_append] at hc
  rcases hc with hc | hc
  · exact .inl (List.all_eq_true.mp h.wholeDigits c hc)
  · split at hc
    · cases hc
    · next digits hdigits =>
      rcases List.mem_cons.mp hc with hc | hc
      · exact .inr hc
      · exact .inl (List.all_eq_true.mp (h.fractionDigits digits hdigits) c hc)

/-- Without its exponent a numeral has digits, a point and a minus. -/
theorem of_mem_plainText (h : n.IsLiteral) {c : Char} (hc : c ∈ n.plainText) :
    c = '-' ∨ c.isDigit = true ∨ c = '.' := by
  rw [plainText, List.mem_append] at hc
  rcases hc with hc | hc
  · rcases h.sign with hsign | hsign
    · rw [hsign] at hc
      cases hc
    · rw [hsign] at hc
      exact .inl (List.mem_singleton.mp hc)
  · exact .inr (h.of_mem_magnitudeText hc)

/-- Without its exponent a numeral ends with a digit or with the point. -/
theorem exists_last (h : n.IsLiteral) :
    ∃ before d, n.magnitudeText = before ++ [d] ∧ (d.isDigit = true ↔ n.fraction ≠ some []) := by
  have hconcat : ∀ digits : List Char, digits ≠ [] → digits.all Char.isDigit = true →
      ∃ before d, digits = before ++ [d] ∧ d.isDigit = true := by
    intro digits hne hdigits
    have hmem := List.getLast_mem hne
    exact ⟨digits.dropLast, digits.getLast hne, (List.dropLast_concat_getLast hne).symm,
      List.all_eq_true.mp hdigits _ hmem⟩
  rw [magnitudeText]
  split
  · next hnone =>
    have hwhole : n.whole ≠ [] := by
      intro hnil
      have hfilled := h.filled
      simp [hasDigits, hnil, hnone] at hfilled
    obtain ⟨before, d, htext, hd⟩ := hconcat n.whole hwhole h.wholeDigits
    exact ⟨before, d, by rw [htext, List.append_nil], by simp [hd, hnone]⟩
  · next digits hsome =>
    by_cases hne : digits = []
    · exact ⟨n.whole, '.', by rw [hne], by simp [hsome, hne]⟩
    · obtain ⟨before, d, htext, hd⟩ := hconcat digits hne (h.fractionDigits digits hsome)
      exact ⟨n.whole ++ '.' :: before, d, by simp [htext], by simp [hd, hsome, hne]⟩

private theorem readExponent?_exponentText (h : n.IsLiteral)
    (hletter : letter = 'e' ∨ letter = 'E') :
    readExponent? (n.exponentText letter) = some n.exponent := by
  rw [exponentText]
  split
  · next hnone => rw [hnone, readExponent?]
  · next sign digits hsome =>
    obtain ⟨hsign, hne, hdigits⟩ := h.exponent sign digits hsome
    have hhead : ∀ c, digits.head? = some c → c ≠ '+' ∧ c ≠ '-' := by
      intro c hc
      have hdigit := List.all_eq_true.mp hdigits c (List.mem_of_head? hc)
      exact ⟨ne_of_isDigit hdigit (by decide), ne_of_isDigit hdigit (by decide)⟩
    have hfilled : digits.isEmpty = false := by
      cases digits with
      | nil => exact absurd rfl hne
      | cons d digits => rfl
    rw [hsome, List.cons_append, readExponent?, takeSign_append hsign hhead]
    rcases hletter with rfl | rfl <;> simp [hfilled, hdigits]

/-- A numeral is read back from its text. -/
theorem read?_literalText (h : n.IsLiteral) (hletter : letter = 'e' ∨ letter = 'E') :
    read? (n.literalText letter) = some n := by
  have hexponent := h.readExponent?_exponentText hletter
  -- Behind digits the exponent goes on with neither a digit nor a point.
  have hend : ∀ c, (n.exponentText letter).head? = some c → c.isDigit = false ∧ c ≠ '.' := by
    intro c hc
    rw [exponentText] at hc
    split at hc
    · cases hc
    · rw [List.cons_append, List.head?_cons, Option.some.injEq] at hc
      subst hc
      rcases hletter with rfl | rfl <;> decide
  have htake : ∀ {digits : List Char}, digits.all Char.isDigit = true → ∀ {rest : List Char},
      (∀ c, rest.head? = some c → c.isDigit = false) →
        (digits ++ rest).takeWhile Char.isDigit = digits ∧
          (digits ++ rest).dropWhile Char.isDigit = rest := by
    intro digits hdigits rest hrest
    rw [List.takeWhile_append_of_pos (List.all_eq_true.mp hdigits),
      List.dropWhile_append_of_pos (List.all_eq_true.mp hdigits)]
    cases rest with
    | nil => simp
    | cons c rest => simp [hrest c rfl]
  have hsign : takeSign (n.literalText letter) =
      (n.sign, n.magnitudeText ++ n.exponentText letter) := by
    rw [literalText, plainText, List.append_assoc]
    apply takeSign_append
    · intro c hc
      rcases h.sign with hnone | hminus
      · rw [hnone] at hc
        cases hc
      · rw [hminus, Option.some.injEq] at hc
        exact .inr hc.symm
    · intro c hc
      have hne : n.magnitudeText ≠ [] := by
        obtain ⟨before, d, htext, -⟩ := h.exists_last
        simp [htext]
      rw [List.head?_append_of_ne_nil _ hne] at hc
      rcases h.of_mem_magnitudeText (List.mem_of_head? hc) with hdigit | rfl
      · exact ⟨ne_of_isDigit hdigit (by decide), ne_of_isDigit hdigit (by decide)⟩
      · decide
  obtain ⟨sign, whole, fraction, exponent⟩ := n
  rw [read?, hsign]
  dsimp only [magnitudeText] at hend ⊢
  cases fraction with
  | none =>
    obtain ⟨hwhole, hrest⟩ := htake h.wholeDigits fun c hc ↦ (hend c hc).1
    rw [List.append_nil, hwhole, hrest]
    split
    · next more hmore =>
      rw [hmore] at hend
      exact absurd rfl (hend '.' rfl).2
    · rw [hexponent]
      rfl
  | some digits =>
    obtain ⟨hwhole, hrest⟩ := @htake whole h.wholeDigits
      ('.' :: (digits ++ exponentText letter ⟨sign, whole, some digits, exponent⟩))
      (by simp)
    obtain ⟨hdigits, hlater⟩ := htake (h.fractionDigits digits rfl) fun c hc ↦ (hend c hc).1
    rw [List.append_assoc, List.cons_append, hwhole, hrest]
    split
    · next more hmore =>
      obtain ⟨-, rfl⟩ := List.cons.inj hmore
      rw [hdigits, hlater, hexponent]
      rfl
    · next hnot => exact absurd rfl (hnot _)

end IsLiteral

/-- A numeral that is written without exponent: a minus or no sign, digits, and digits behind the
point if there is one. -/
structure IsPlain (n : Numeral) : Prop where
  sign : n.sign = none ∨ n.sign = some '-'
  whole : n.whole ≠ []
  wholeDigits : n.whole.all Char.isDigit = true
  fraction : ∀ digits, n.fraction = some digits → digits ≠ [] ∧ digits.all Char.isDigit = true
  exponent : n.exponent = none

/-- A numeral without exponent is one that formulas admit. -/
theorem IsPlain.isLiteral {n : Numeral} (h : n.IsPlain) : n.IsLiteral where
  sign := h.sign
  wholeDigits := h.wholeDigits
  fractionDigits digits hdigits := (h.fraction digits hdigits).2
  filled := by
    cases hwhole : n.whole with
    | nil => exact absurd hwhole h.whole
    | cons d whole => rw [hasDigits, hwhole, List.isEmpty_cons, Bool.not_false, Bool.true_or]
  exponent sign digits hsome := by
    rw [h.exponent] at hsome
    cases hsome

/-- Without an exponent there is nothing behind the magnitude. -/
theorem IsPlain.literalText_eq {n : Numeral} (h : n.IsPlain) (letter : Char) :
    n.literalText letter = n.plainText := by
  rw [literalText, exponentText, h.exponent]
  exact List.append_nil _

/-- A numeral without exponent is read back from its text. -/
theorem IsPlain.read?_plainText {n : Numeral} (h : n.IsPlain) : read? n.plainText = some n := by
  rw [← h.literalText_eq 'e']
  exact h.isLiteral.read?_literalText (.inl rfl)

/-- Digits behind a sign write the whole number that they spell. -/
theorem toDouble_signed (sign : Option Char) (digits : List Char) :
    (Numeral.mk sign digits none none).toDouble =
      Double.round (sign == some '-') (digitsValue digits) 1 := by
  have hscale : (Numeral.mk sign digits none none).scale = 0 := rfl
  have hcoefficient : (Numeral.mk sign digits none none).coefficient = digitsValue digits := by
    simp [coefficient]
  rw [toDouble, hscale, hcoefficient, isNegative, Double.ofDecimal]
  split
  · next hzero => rw [hzero, Double.round, if_pos rfl]
  · have hsmall : ¬ (0 : Int) < -400 - ((digitsValue digits).log2 : Int) := by omega
    have hone : Double.tenPow 0 = (1, 1) := rfl
    rw [if_neg (by decide), if_neg hsmall, hone]
    dsimp only
    rw [Nat.mul_one]

/-- Digits alone write the whole number that they spell. -/
theorem toDouble_whole (digits : List Char) :
    (Numeral.mk none digits none none).toDouble = Double.ofInt (digitsValue digits) := by
  have hsign : decide ((digitsValue digits : Int) < 0) = false := by
    rw [decide_eq_false_iff_not]
    omega
  rw [toDouble_signed, Double.ofInt, hsign, Int.natAbs_natCast]
  rfl

end Numeral

/-! ### Numbers in running text -/

namespace Double

variable {digits : List Char} {sign : Option Char}

private theorem all_isDigit_zeros (k : Nat) : (List.replicate k '0').all Char.isDigit = true := by
  rw [List.all_eq_true]
  intro c hc
  rw [List.eq_of_mem_replicate hc]
  decide

private theorem exists_wholeText (hne : digits ≠ []) (hdigits : digits.all Char.isDigit = true)
    (hsign : sign = none ∨ sign = some '-') (k : Nat) :
    ∃ n : Numeral, n.sign = sign ∧ n.IsPlain ∧
      (writePositional .plain digits k).toList = n.magnitudeText ∧
        (n.coefficient : ℚ) * 10 ^ n.scale = Numeral.digitsValue digits * 10 ^ (k : Int) := by
  refine ⟨⟨sign, digits ++ List.replicate k '0', none, none⟩, rfl,
    ⟨hsign, by simp [hne], ?_, by simp, rfl⟩, ?_, ?_⟩
  · dsimp only
    rw [List.all_append, hdigits, all_isDigit_zeros, Bool.and_self]
  · simp [writePositional, Numeral.magnitudeText, Format.plain]
  · have hscale : (Numeral.mk sign (digits ++ List.replicate k '0') none none).scale = 0 := rfl
    rw [hscale, Numeral.coefficient, Option.getD_none, List.append_nil, digitsValue_append_zeros,
      zpow_zero, mul_one, zpow_natCast]
    push_cast
    rfl

private theorem exists_fractionText (hdigits : digits.all Char.isDigit = true)
    (hsign : sign = none ∨ sign = some '-') (k : Nat) :
    ∃ n : Numeral, n.sign = sign ∧ n.IsPlain ∧
      (writePositional .plain digits (-((k + 1 : Nat) : Int))).toList = n.magnitudeText ∧
        (n.coefficient : ℚ) * 10 ^ n.scale =
          Numeral.digitsValue digits * 10 ^ (-((k + 1 : Nat) : Int)) := by
  rw [writePositional, if_neg (by omega), Int.neg_neg, Int.toNat_natCast]
  dsimp only
  generalize hpadded : List.replicate (k + 1 + 1 - digits.length) '0' ++ digits = padded
  have hlength : k + 1 < padded.length := by
    rw [← hpadded, List.length_append, List.length_replicate]
    omega
  have hall : padded.all Char.isDigit = true := by
    rw [← hpadded, List.all_append, all_isDigit_zeros, hdigits, Bool.and_self]
  have hvalue : Numeral.digitsValue padded = Numeral.digitsValue digits := by
    rw [← hpadded, digitsValue_zeros_append]
  generalize hwhole : padded.length - (k + 1) = whole
  have hplaces : (padded.drop whole).length = k + 1 := by
    rw [List.length_drop]
    omega
  have hsplit : padded.take whole ++ padded.drop whole = padded :=
    List.take_append_drop whole padded
  rw [← hsplit, List.all_append, Bool.and_eq_true] at hall
  refine ⟨⟨sign, padded.take whole, some (padded.drop whole), none⟩, rfl,
    ⟨hsign, ?_, hall.1, ?_, rfl⟩, ?_, ?_⟩
  · apply List.ne_nil_of_length_pos
    dsimp only
    rw [List.length_take]
    omega
  · rintro _ ⟨⟩
    exact ⟨List.ne_nil_of_length_pos (by omega), hall.2⟩
  · simp [Numeral.magnitudeText, String.toList_append]
  · have hscale : (Numeral.mk sign (padded.take whole) (some (padded.drop whole)) none).scale =
        -((k + 1 : Nat) : Int) := by
      rw [Numeral.scale, Option.getD_some, hplaces]
      exact Int.zero_sub _
    rw [hscale, Numeral.coefficient, Option.getD_some, hsplit, hvalue]

private theorem exists_magnitudeText (hne : digits ≠ []) (hdigits : digits.all Char.isDigit = true)
    (hsign : sign = none ∨ sign = some '-') (p : Int) :
    ∃ n : Numeral, n.sign = sign ∧ n.IsPlain ∧
      (writePositional .plain digits p).toList = n.magnitudeText ∧
        (n.coefficient : ℚ) * 10 ^ n.scale = Numeral.digitsValue digits * 10 ^ p := by
  by_cases hp : 0 ≤ p
  · obtain ⟨k, rfl⟩ := Int.eq_ofNat_of_zero_le hp
    exact exists_wholeText hne hdigits hsign k
  · obtain ⟨k, rfl⟩ : ∃ k : Nat, p = -((k + 1 : Nat) : Int) := ⟨(-p).toNat - 1, by omega⟩
    exact exists_fractionText hdigits hsign k

/-- What is written in running text for a finite value is a plain numeral, which reads back as the
value. -/
theorem IsBinary64.exists_plainText {x : Double} (h : x.IsBinary64) :
    ∃ n : Numeral, n.IsPlain ∧ (x.write .plain).toList = n.plainText ∧ n.toDouble = x := by
  cases x with
  | infinite negative => exact h.elim
  | nan => exact h.elim
  | finite negative m q =>
    obtain ⟨sign, hsign, htext, hnegative⟩ : ∃ sign : Option Char,
        (sign = none ∨ sign = some '-') ∧
          (if negative then "-" else "").toList = sign.toList ∧ (sign == some '-') = negative := by
      cases negative
      · exact ⟨none, .inl rfl, rfl, rfl⟩
      · exact ⟨some '-', .inr rfl, rfl, rfl⟩
    rw [write, writeMagnitude]
    rcases Nat.eq_zero_or_pos m with rfl | hm
    · obtain ⟨-, rfl⟩ : 0 = 0 ∧ q = 0 := by
        rcases h with h | h
        · exact h
        · omega
      refine ⟨⟨sign, ['0'], none, none⟩, ⟨hsign, by simp, rfl, by simp, rfl⟩, ?_, ?_⟩
      · rw [if_pos rfl, String.toList_append, htext]
        rfl
      · rw [Numeral.toDouble, Numeral.isNegative, hnegative]
        rfl
    · obtain ⟨hne, hdigits, hin⟩ := shortest_spec Format.plain.tie h hm
      rw [if_neg hm.ne']
      generalize shortest Format.plain.tie m q = decimal at *
      obtain ⟨digits, p⟩ := decimal
      obtain ⟨n, rfl, hplain, hmagnitude, hvalue⟩ := exists_magnitudeText hne hdigits hsign p
      refine ⟨n, hplain, ?_, ?_⟩
      · dsimp only
        rw [String.toList_append, htext]
        exact congrArg _ hmagnitude
      · rw [← hvalue] at hin
        rw [Numeral.toDouble, Numeral.isNegative, hnegative]
        exact ofDecimal_of_contains h hm hin

end Double
end FilterPipeline
