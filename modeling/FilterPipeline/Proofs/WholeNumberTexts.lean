import FilterPipeline.Proofs.CoercedOperands
import FilterPipeline.Proofs.LengthTests
import FilterPipeline.Proofs.NumberTexts

/-!
# Texts of whole numbers as operands

The text of a whole number becomes a number by way of a binary64 value, which has room for 53
significant bits. Main statement: the operand that such a text of 64 bits becomes is a number, and
it is the number that is written exactly when that has so few significant bits
(`Json.coerceFor_of_spellsInt`).
-/

namespace FilterPipeline
namespace Double

/-- Whether a whole number has at most 53 significant bits. -/
def FitsSignificand (n : Nat) : Prop := ∃ m k, m < 2 ^ 53 ∧ n = m * 2 ^ k

variable {n : Nat}

/-- Without its last bits beyond the first 53 a number stays the same exactly when they are zero. -/
theorem fitsSignificand_iff : FitsSignificand n ↔ 2 ^ (n.log2 - 52) ∣ n := by
  constructor
  · rintro ⟨m, k, hm, rfl⟩
    rcases Nat.eq_zero_or_pos m with rfl | hpos
    · rw [Nat.zero_mul]
      exact Nat.dvd_zero _
    · have hbits : m.log2 < 53 := (Nat.log2_lt hpos.ne').mpr hm
      rw [log2_mul_pow hpos]
      exact (Nat.pow_dvd_pow 2 (by omega)).mul_left m
  · rintro ⟨m, hm⟩
    refine ⟨m, n.log2 - 52, ?_, hm.trans (Nat.mul_comm _ _)⟩
    rcases Nat.eq_zero_or_pos m with rfl | hpos
    · exact Nat.two_pow_pos 53
    · have hlog : n.log2 = m.log2 + (n.log2 - 52) := by
        rw [← log2_mul_pow hpos, Nat.mul_comm, ← hm]
      rw [← Nat.log2_lt hpos.ne']
      omega

/-- Whether a number fits is decided by whether a power of two divides it. -/
instance : DecidablePred FitsSignificand := fun _ ↦ decidable_of_iff _ fitsSignificand_iff.symm

/-- Whole numbers up to the exact bound have few bits enough. -/
theorem fitsSignificand_of_le (h : n ≤ Json.exactBound) : FitsSignificand n := by
  rcases Nat.lt_or_eq_of_le h with hlt | rfl
  · exact ⟨n, 0, hlt, (Nat.mul_one n).symm⟩
  · exact ⟨1, 53, by decide, rfl⟩

private theorem FitsSignificand.exists_odd (h : FitsSignificand n) (hpos : 0 < n) :
    ∃ m q, m % 2 = 1 ∧ m.log2 < 53 ∧ n = m * 2 ^ q := by
  obtain ⟨m, k, hm, rfl⟩ := h
  have hne : m ≠ 0 := fun hzero ↦ by simp [hzero] at hpos
  obtain ⟨j, odd, hodd, rfl⟩ := Nat.exists_eq_two_pow_mul_odd hne
  refine ⟨odd, j + k, Nat.odd_iff.mp hodd, ?_, by rw [Nat.pow_add]; ring⟩
  rw [Nat.log2_lt hodd.pos.ne']
  exact (Nat.le_mul_of_pos_left odd (Nat.two_pow_pos j)).trans_lt hm

/-- A whole number with few bits enough rounds to itself. -/
theorem toInt?_round (h : FitsSignificand n) (hn : n.log2 < 1024) (negative : Bool) :
    (round negative n 1).toInt? = some (if negative then -(n : Int) else n) := by
  rcases Nat.eq_zero_or_pos n with rfl | hpos
  · cases negative <;> rfl
  · obtain ⟨m, q, hodd, hbits, rfl⟩ := h.exists_odd hpos
    have hm : 0 < m := by omega
    rw [log2_mul_pow hm] at hn
    have hvalue : IsBinary64 (finite negative m q) := by
      refine .inr ⟨hodd, ?_, by omega⟩
      rw [lastPlace]
      omega
    obtain ⟨-, -, _, s, u, hplace⟩ := hvalue.exists_hasPlace hm
    have hin := hplace.contains_value (hplace.pos hm)
    rw [round_of_contains hpos Nat.one_pos hvalue hm (by simpa using hin)]
    simp [toInt?]

private theorem IsBinary64.fitsSignificand {m : Nat} {q : Int} (h : IsBinary64 (finite false m q))
    (hn : (m : ℚ) * 2 ^ q = n) : FitsSignificand n := by
  have hm : m < 2 ^ 53 := by
    rcases h with ⟨rfl, -⟩ | ⟨hodd, hplace, -⟩
    · exact Nat.two_pow_pos 53
    · rw [← Nat.log2_lt (by omega)]
      rw [lastPlace] at hplace
      omega
  obtain ⟨k, rfl | rfl⟩ := q.eq_nat_or_neg
  · refine ⟨m, k, hm, ?_⟩
    rw [zpow_natCast] at hn
    exact_mod_cast hn.symm
  · -- the number is a part of the mantissa
    rw [zpow_neg, zpow_natCast, ← div_eq_mul_inv, div_eq_iff (by positivity)] at hn
    have hle : n ≤ m := by
      have hmul : m = n * 2 ^ k := by exact_mod_cast hn
      exact hmul ▸ Nat.le_mul_of_pos_right n (Nat.two_pow_pos k)
    exact ⟨n, 0, hle.trans_lt hm, (Nat.mul_one n).symm⟩

/-- A whole number of at most 1023 bits rounds to a finite value. -/
theorem isFinite_round_whole (hn : n.log2 < 1023) (negative : Bool) :
    (round negative n 1).isFinite = true := by
  refine isFinite_round Nat.one_pos ?_
  have hlt : (n : ℚ) < 2 ^ (n.log2 + 1) := by exact_mod_cast Nat.lt_log2_self
  rw [Nat.cast_one, div_one, ← zpow_natCast] at *
  exact hlt.trans_le (zpow_le_zpow_right₀ one_le_two (by omega))

/-- A whole number rounds to a finite value, which is the number itself exactly when that has few
bits enough. -/
theorem exists_toRat?_round (hn : n.log2 < 1023) (negative : Bool) :
    ∃ x, (round negative n 1).toRat? = some x ∧
      (x = (if negative then -(n : ℚ) else n) ↔ FitsSignificand n) := by
  obtain ⟨x, hx, hiff⟩ :
      ∃ x, (round false n 1).toRat? = some x ∧ (x = n ↔ FitsSignificand n) := by
    have hvalue := isBinary64_round Nat.one_pos (isFinite_round_whole hn false)
    have hint (h : FitsSignificand n) := toInt?_round h (hn.trans (by decide)) false
    generalize round false n 1 = y at hvalue hint
    cases y with
    | infinite negative => exact hvalue.elim
    | nan => exact hvalue.elim
    | finite negative m q =>
      refine ⟨_, rfl, fun hx ↦ ?_, fun h ↦ by simpa using toRat?_eq_of_toInt? rfl (hint h)⟩
      rcases Nat.eq_zero_or_pos n with rfl | hpos
      · exact fitsSignificand_of_le (Nat.zero_le _)
      · have hpos : (0 : ℚ) < n := Nat.cast_pos.mpr hpos
        have hmagnitude : (0 : ℚ) ≤ m * 2 ^ q := by positivity
        cases negative with
        | false => exact IsBinary64.fitsSignificand hvalue (by simpa using hx)
        | true =>
          rw [if_pos rfl] at hx
          linarith
  cases negative with
  | false => exact ⟨x, hx, by simpa using hiff⟩
  | true => exact ⟨-x, by rw [toRat?_round_true, hx]; rfl, by simpa using hiff⟩

end Double

namespace Json

open Double (FitsSignificand)

/-- A text is a whole number in decimal digits, behind a minus or no sign; blanks around it do not
count. -/
def SpellsInt (s : String) (n : Int) : Prop :=
  ∃ (negative : Bool) (digits : List Char), digits ≠ [] ∧ digits.all Char.isDigit = true ∧
    Text.trim s.toList = (if negative then ['-'] else []) ++ digits ∧
    n = if negative then -(Numeral.digitsValue digits : Int) else Numeral.digitsValue digits

variable {s : String} {n : Int} {type : Option FieldType}

/-- The text of a whole number is read as what that rounds to. -/
theorem SpellsInt.finiteNumber?_eq (h : SpellsInt s n) (hn : n.natAbs.log2 < 1023) :
    ∃ negative, n = (if negative then -(n.natAbs : Int) else n.natAbs) ∧
      finiteNumber? s = some (.round negative n.natAbs 1) := by
  obtain ⟨negative, digits, hne, hdigits, htext, hvalue⟩ := h
  have habs : n.natAbs = Numeral.digitsValue digits := by
    cases negative <;> simp [hvalue]
  refine ⟨negative, habs ▸ hvalue, ?_⟩
  obtain ⟨sign, hsign, hsignText, hnegative⟩ : ∃ sign : Option Char,
      (sign = none ∨ sign = some '-') ∧
        (if negative then ['-'] else []) = sign.toList ∧ (sign == some '-') = negative := by
    cases negative
    · exact ⟨none, .inl rfl, rfl, rfl⟩
    · exact ⟨some '-', .inr rfl, rfl, rfl⟩
  have hplain : (Numeral.mk sign digits none none).IsPlain :=
    ⟨hsign, hne, hdigits, nofun, rfl⟩
  have hread := hplain.read?_plainText
  rw [Numeral.plainText, Numeral.magnitudeText, List.append_nil, ← hsignText, ← htext] at hread
  have hfinite := Double.isFinite_round_whole hn negative
  rw [habs] at hfinite ⊢
  have hhas : (Numeral.mk sign digits none none).hasDigits = true := by
    simp [Numeral.hasDigits, hne]
  simp [finiteNumber?, Numeral.finiteValue?, hread, Numeral.toDouble_signed, hnegative, hfinite,
    hhas]

/-- The operand that the text of a whole number of 64 bits becomes is a number, unless the field
holds texts or truth values. It is the number that is written exactly when that has at most 53
significant bits; up to the exact bound it is an integer. -/
theorem coerceFor_of_spellsInt (h : SpellsInt s n) (hn : FitsInt64 n)
    (hstring : type ≠ some .string) (hboolean : type ≠ some .boolean) :
    (∃ x, ((str s).coerceFor type).toRat? = some x ∧ (x = n ↔ FitsSignificand n.natAbs)) ∧
      (n.natAbs ≤ exactBound → (str s).coerceFor type = .int n) := by
  have hlog : n.natAbs.log2 < 65 := by
    obtain ⟨hlow, hhigh⟩ := hn
    rw [Double.minInt64] at hlow
    rw [Literal.maxUInt64] at hhigh
    rcases Nat.eq_zero_or_pos n.natAbs with hzero | hpos
    · rw [hzero]
      decide
    · rw [Nat.log2_lt hpos.ne']
      omega
  obtain ⟨negative, hsign, hnumber⟩ := h.finiteNumber?_eq (hlog.trans (by decide))
  have hoperand : (str s).coerceFor type = .ofDouble (.round negative n.natAbs 1) := by
    rw [coerceFor_of_ne hstring hboolean, coerceNumber, hnumber]
    rfl
  rw [hoperand]
  constructor
  · obtain ⟨x, hx, hiff⟩ := Double.exists_toRat?_round (hlog.trans (by decide)) negative
    have hcast : (n : ℚ) = if negative then -(n.natAbs : ℚ) else n.natAbs :=
      (congrArg Int.cast hsign).trans (by cases negative <;> simp)
    exact ⟨x, toRat?_ofDouble hx, by rw [hcast, hiff]⟩
  · intro hle
    have hint := Double.toInt?_round (Double.fitsSignificand_of_le hle) (hlog.trans (by decide))
      negative
    rw [← hsign] at hint
    rw [ofDouble, hint]
    exact if_pos hle

/-- Zeros in front of a number and blanks around it do not matter, and a number with zeros at the
end of its bits may be past the exact bound. -/
theorem coerceFor_padded :
    (str " -0042 ").coerceFor (some .number) = .int (-42) ∧
      ((str "4611686018427387904").coerceFor (some .number)).toRat? = some 4611686018427387904 := by
  have hsmall : SpellsInt " -0042 " (-42) :=
    ⟨true, "0042".toList, by decide, by decide, by decide, by decide⟩
  have hlarge : SpellsInt "4611686018427387904" 4611686018427387904 :=
    ⟨false, "4611686018427387904".toList, by decide, by decide, by decide, by decide⟩
  refine ⟨(coerceFor_of_spellsInt hsmall ⟨by decide, by decide⟩ (by decide) (by decide)).2
    (by decide), ?_⟩
  obtain ⟨⟨x, hx, hiff⟩, -⟩ := @coerceFor_of_spellsInt _ _ (some .number) hlarge
    ⟨by decide, by decide⟩ (by decide) (by decide)
  rw [hx, hiff.mpr ⟨1, 62, by decide, by decide⟩]
  rfl

/-- The least whole number with 54 significant bits is compared as the one before it when it is
given as a text, but as itself when it is given as a number. -/
theorem coerceFor_not_exact :
    SpellsInt "9007199254740993" 9007199254740993 ∧
      (str "9007199254740993").coerceFor none = .int 9007199254740992 ∧
      (int 9007199254740993).coerceFor none = .int 9007199254740993 := by
  refine ⟨⟨false, "9007199254740993".toList, by decide, by decide, by decide, by decide⟩, ?_, rfl⟩
  have hnumber : finiteNumber? "9007199254740993" = some (.finite false 1 53) := by decide +kernel
  rw [coerceFor_of_ne (by decide) (by decide), coerceNumber, hnumber]
  rfl

end Json
end FilterPipeline
