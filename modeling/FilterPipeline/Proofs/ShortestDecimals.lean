import FilterPipeline.Number.Numeral
import FilterPipeline.Proofs.Rounding

/-!
# Shortest decimals

The decimal that is written for a value is searched for on grids of decimals, from coarse to fine.
Main statements: `shortest_spec`, what is found lies in the interval around the value, since the
finest grid has a decimal there for every value, and `ofDecimal_of_contains`, every decimal there is
read as the value.
-/

namespace FilterPipeline.Double

/-! ### Neighbours on a grid of decimals -/

namespace Interval

variable {i : Interval} {tie : Tie} {p : Int}

private theorem decimal_le_iff (hden : 0 < i.den) (a c : Nat) :
    ((a : ℚ) * ((i.num : ℚ) / i.den) ≤ c * 10 ^ p ↔
      a * (i.num * (tenPow p).2) ≤ c * (i.den * (tenPow p).1)) ∧
    ((c : ℚ) * 10 ^ p ≤ a * ((i.num : ℚ) / i.den) ↔
      c * (i.den * (tenPow p).1) ≤ a * (i.num * (tenPow p).2)) := by
  obtain ⟨-, hd, hvalue⟩ := tenPow_spec p
  have hden' : (0 : ℚ) < i.den := Nat.cast_pos.mpr hden
  have hd' : (0 : ℚ) < (tenPow p).2 := Nat.cast_pos.mpr hd
  rw [← hvalue, ← mul_div_assoc, ← mul_div_assoc, div_le_div_iff₀ hden' hd',
    div_le_div_iff₀ hd' hden', mul_assoc, mul_assoc, mul_comm ((tenPow p).1 : ℚ)]
  exact ⟨by exact_mod_cast Iff.rfl, by exact_mod_cast Iff.rfl⟩

/-- Whether a decimal lies in an interval, as it is tested with whole numbers. -/
theorem contains_decimal_iff (hden : 0 < i.den) (c : Nat) :
    i.Contains (c * 10 ^ p) ↔
      (if i.closed then
        i.low * (i.num * (tenPow p).2) ≤ c * (i.den * (tenPow p).1) &&
          c * (i.den * (tenPow p).1) ≤ i.high * (i.num * (tenPow p).2)
      else
        i.low * (i.num * (tenPow p).2) < c * (i.den * (tenPow p).1) &&
          c * (i.den * (tenPow p).1) < i.high * (i.num * (tenPow p).2)) = true := by
  rw [Contains, ← not_le, ← not_le, (decimal_le_iff hden i.low c).1,
    (decimal_le_iff hden i.low c).2, (decimal_le_iff hden i.high c).1,
    (decimal_le_iff hden i.high c).2, not_le, not_le]
  cases i.closed
  · simp only [Bool.false_eq_true, if_false, true_implies, Bool.and_eq_true, decide_eq_true_eq]
    exact ⟨fun h ↦ h.2, fun h ↦ ⟨⟨h.1.le, h.2.le⟩, h⟩⟩
  · simp only [if_true, Bool.and_eq_true, decide_eq_true_eq, Bool.true_eq_false, false_implies,
      and_true]

private theorem contains_of_nearest? (hden : 0 < i.den) {c : Nat} (h : i.nearest? tie p = some c) :
    i.Contains (c * 10 ^ p) := by
  rw [contains_decimal_iff hden]
  simp only [nearest?] at h
  split at h
  · next hbelow habove =>
    split at h
    · cases h
      exact hbelow
    · split at h
      · cases h
        exact habove
      · split at h
        · split at h
          · cases h
            exact habove
          · cases h
            exact hbelow
        · rw [if_pos rfl] at h
          cases h
          exact habove
  · next hbelow _ =>
    cases h
    exact hbelow
  · next _ habove =>
    cases h
    exact habove
  · cases h

/-- The greatest decimal on a grid that is not above the value. -/
def below (i : Interval) (p : Int) : Nat :=
  i.value * (i.num * (tenPow p).2) / (i.den * (tenPow p).1)

private theorem below_le (hden : 0 < i.den) :
    (i.below p : ℚ) * 10 ^ p ≤ i.value * ((i.num : ℚ) / i.den) ∧
      i.value * ((i.num : ℚ) / i.den) < ((i.below p + 1 : Nat) : ℚ) * 10 ^ p := by
  have hunit : 0 < i.den * (tenPow p).1 := Nat.mul_pos hden (tenPow_spec p).1
  rw [← not_le, (decimal_le_iff hden i.value _).2, (decimal_le_iff hden i.value _).2, not_le, below]
  exact ⟨Nat.div_mul_le_self _ _, Nat.lt_mul_of_div_lt (Nat.lt_succ_self _) hunit⟩

private theorem exists_nearest? (hden : 0 < i.den)
    (h : i.Contains (i.below p * 10 ^ p) ∨ i.Contains ((i.below p + 1 : Nat) * 10 ^ p)) :
    ∃ c, i.nearest? tie p = some c := by
  rw [contains_decimal_iff hden, contains_decimal_iff hden, below] at h
  simp only [nearest?]
  split
  · exact ⟨_, rfl⟩
  · exact ⟨_, rfl⟩
  · exact ⟨_, rfl⟩
  · next hbelow habove =>
    rw [hbelow, habove] at h
    simp at h

private theorem exists_nearest?_of_lt (hden : 0 < i.den) (hnum : 0 < i.num) (hlow : i.low < i.value)
    (hhigh : i.value < i.high)
    (h : i.low * ((i.num : ℚ) / i.den) + 10 ^ p < i.high * ((i.num : ℚ) / i.den)) :
    ∃ c, i.nearest? tie p = some c := by
  have hunit : (0 : ℚ) < (i.num : ℚ) / i.den :=
    div_pos (Nat.cast_pos.mpr hnum) (Nat.cast_pos.mpr hden)
  have hlow' : i.low * ((i.num : ℚ) / i.den) < i.value * ((i.num : ℚ) / i.den) := by gcongr
  have hhigh' : i.value * ((i.num : ℚ) / i.den) < i.high * ((i.num : ℚ) / i.den) := by gcongr
  have hinside : ∀ y : ℚ, i.low * ((i.num : ℚ) / i.den) < y → y < i.high * ((i.num : ℚ) / i.den) →
      i.Contains y := fun y hl hh ↦ ⟨⟨hl.le, hh.le⟩, fun _ ↦ ⟨hl, hh⟩⟩
  obtain ⟨hbelow, habove⟩ := @below_le i p hden
  apply exists_nearest? hden
  by_cases hcase : i.low * ((i.num : ℚ) / i.den) < i.below p * 10 ^ p
  · exact .inl (hinside _ hcase (by linarith))
  · right
    apply hinside
    · linarith
    · push_cast
      linarith

private theorem contains_search (hden : 0 < i.den) {first : Int}
    (h : ∃ c, i.nearest? tie (first - 16) = some c) (fuel : Nat) :
    i.Contains ((i.search tie first (fuel + 1)).1 * 10 ^ (i.search tie first (fuel + 1)).2) := by
  induction fuel with
  | zero =>
    obtain ⟨c, hc⟩ := h
    have hsearch : i.search tie first (0 + 1) = (c, first - 16) := by
      simp [search, hc]
    rw [hsearch]
    exact contains_of_nearest? hden hc
  | succ fuel ih =>
    rw [search]
    split
    · next c hc => exact contains_of_nearest? hden hc
    · exact ih

end Interval

/-! ### Seventeen digits -/

private theorem two_zpow_le_ten_zpow {a b : Nat} (h : 2 ^ a ≤ 10 ^ b) :
    (2 : ℚ) ^ (a : Int) ≤ 10 ^ (b : Int) ∧ (10 : ℚ) ^ (-(b : Int)) ≤ 2 ^ (-(a : Int)) := by
  have hle : (2 : ℚ) ^ (a : Int) ≤ 10 ^ (b : Int) := by
    rw [zpow_natCast, zpow_natCast]
    exact_mod_cast h
  rw [zpow_neg, zpow_neg]
  exact ⟨hle, inv_anti₀ (by positivity) hle⟩

private theorem toDigits_scaled_le {num den k scale : Nat} {e : Int} (hden : 0 < den)
    (hpower : scale = 10 ^ k) (he : e = k + 1) (h : (10 : ℚ) ^ (-(k : Int)) ≤ (num : ℚ) / den) :
    (10 : ℚ) ^ (((Nat.toDigits 10 (num * scale / den)).length : Int) - e) ≤ (num : ℚ) / den := by
  subst hpower he
  have hden' : (0 : ℚ) < den := Nat.cast_pos.mpr hden
  have hscale : (0 : ℚ) < 10 ^ k := by positivity
  have hone : 1 ≤ num * 10 ^ k / den := by
    rw [Nat.le_div_iff_mul_le hden, Nat.one_mul]
    rw [zpow_neg, zpow_natCast, le_div_iff₀ hden', inv_mul_le_iff₀ hscale, mul_comm] at h
    exact_mod_cast h
  have hfloor : ((num * 10 ^ k / den : Nat) : ℚ) ≤ (num : ℚ) / den * 10 ^ k := by
    rw [div_mul_eq_mul_div, le_div_iff₀ hden']
    exact_mod_cast Nat.div_mul_le_self (num * 10 ^ k) den
  generalize num * 10 ^ k / den = n at *
  have hpos := @Nat.length_toDigits_pos 10 n
  obtain ⟨l, hl⟩ : ∃ l, (Nat.toDigits 10 n).length = l + 1 :=
    ⟨(Nat.toDigits 10 n).length - 1, by omega⟩
  have hfirst : 10 ^ l ≤ n := by
    rcases Nat.eq_zero_or_pos l with rfl | hpos
    · exact hone
    · rw [← not_lt, ← Nat.length_toDigits_le_iff (by decide) hpos, hl]
      omega
  have hsplit : (((l + 1 : Nat) : Int) - (k + 1)) = (l : Int) - k := by omega
  rw [hl, hsplit, zpow_sub₀ (by norm_num), zpow_natCast, zpow_natCast, div_le_iff₀ hscale]
  exact le_trans (by exact_mod_cast hfirst) hfloor

private theorem zpow_floorLog10_le {num den : Nat} (hden : 0 < den)
    (h : (2 : ℚ) ^ (-1074 : Int) ≤ (num : ℚ) / den) :
    (10 : ℚ) ^ floorLog10 num den ≤ (num : ℚ) / den := by
  obtain ⟨-, hsmallest⟩ := @two_zpow_le_ten_zpow 1074 342 (by decide +kernel)
  exact @toDigits_scaled_le num den 342 _ _ hden (by decide +kernel) rfl (hsmallest.trans h)

namespace HasPlace

variable {m k s : Nat} {q u : Int} {tie : Tie}

private theorem le_value (h : HasPlace m q k s u) (hs : 0 < s) :
    (2 : ℚ) ^ (-1074 : Int) ≤ 4 * s * 2 ^ (u - 2) := by
  have hunit := zpow_eq u u 2 (by omega)
  have hone : (1 : ℚ) ≤ s := by exact_mod_cast hs
  have hpos : (0 : ℚ) < 2 ^ (u - 2) := by positivity
  calc (2 : ℚ) ^ (-1074 : Int) ≤ 2 ^ u := zpow_le_zpow_right₀ one_le_two h.last
    _ = 4 * 1 * 2 ^ (u - 2) := by
        rw [hunit]
        norm_num
    _ ≤ 4 * s * 2 ^ (u - 2) := by gcongr

private theorem exists_nearest? (h : HasPlace m q k s u) (hs : 0 < s) :
    ∃ c, (interval m q).nearest? tie
      (floorLog10 ((interval m q).value * (interval m q).num) (interval m q).den - 16) =
        some c := by
  obtain ⟨hnum, hden, hunit⟩ := twoPow_spec (u - 2)
  have hpos : (0 : ℚ) < 2 ^ (u - 2) := by positivity
  have hhalf : 0 < lowerHalf s u ∧ 4 * s < (2 + lowerHalf s u) * 10 ^ 16 := by
    have hsmall := h.small
    rw [lowerHalf]
    split
    · next hfirst =>
      rw [hfirst.1, firstSignificand]
      decide
    · omega
  have hle := lowerHalf_le s u
  rw [h.interval_eq]
  apply Interval.exists_nearest?_of_lt hden hnum
  · dsimp only
    omega
  · dsimp only
    omega
  · dsimp only
    have hvalue : ((4 * s * (twoPow (u - 2)).1 : Nat) : ℚ) / (twoPow (u - 2)).2 =
        4 * s * 2 ^ (u - 2) := by
      rw [← hunit]
      push_cast
      ring
    have hlog := zpow_floorLog10_le hden (le_of_le_of_eq (h.le_value hs) hvalue.symm)
    rw [hvalue] at hlog
    generalize floorLog10 (4 * s * (twoPow (u - 2)).1) (twoPow (u - 2)).2 = first at hlog
    have hgrid : (10 : ℚ) ^ first = 10 ^ (first - 16) * 10 ^ 16 := by
      rw [← zpow_natCast, ← zpow_add₀ (by norm_num), Nat.cast_ofNat, Int.sub_add_cancel]
    have hwide : (4 * s : ℚ) * 2 ^ (u - 2) < (2 + lowerHalf s u) * 10 ^ 16 * 2 ^ (u - 2) :=
      mul_lt_mul_of_pos_right (by exact_mod_cast hhalf.2) hpos
    rw [hunit, Nat.cast_sub (by omega)]
    push_cast
    linarith

end HasPlace

/-! ### Digits -/

/-- Digits with zeros behind them spell a number times a power of ten. -/
theorem digitsValue_append_zeros (digits : List Char) (n : Nat) :
    Numeral.digitsValue (digits ++ List.replicate n '0') =
      Numeral.digitsValue digits * 10 ^ n := by
  have hfold : ∀ cs : List Char, Numeral.digitsValue cs = Nat.ofDigitChars 10 cs 0 := by
    intro cs
    rw [Nat.ofDigitChars_eq_foldl]
    rfl
  rw [hfold, hfold, Nat.ofDigitChars_append, Nat.ofDigitChars_replicate_zero, Nat.mul_comm]

/-- Zeros in front of digits change nothing. -/
theorem digitsValue_zeros_append (n : Nat) (digits : List Char) :
    Numeral.digitsValue (List.replicate n '0' ++ digits) = Numeral.digitsValue digits := by
  have hzeros : ∀ n : Nat, (List.replicate n '0').foldl Numeral.putDigit 0 = 0 := by
    intro n
    induction n with
    | zero => rfl
    | succ n ih => exact ih
  rw [Numeral.digitsValue, List.foldl_append, hzeros]
  rfl

/-- The digits of a number spell it. -/
theorem digitsValue_toDigits (n : Nat) : Numeral.digitsValue (Nat.toDigits 10 n) = n := by
  have hread := @Nat.ofDigitChars_ten_toDigits n
  rw [Nat.ofDigitChars_eq_foldl] at hread
  exact hread

private theorem take_append_zeros (digits : List Char) {n : Nat}
    (h : (digits.reverse.takeWhile (· == '0')).length = n) :
    digits = digits.take (digits.length - n) ++ List.replicate n '0' := by
  have hzeros : digits.reverse.takeWhile (· == '0') = List.replicate n '0' := by
    apply List.eq_replicate_iff.mpr ⟨h, ?_⟩
    intro d hd
    exact eq_of_beq (List.all_eq_true.mp List.all_takeWhile d hd)
  have hsplit := @List.takeWhile_append_dropWhile _ (· == '0') digits.reverse
  rw [hzeros] at hsplit
  generalize digits.reverse.dropWhile (· == '0') = rest at hsplit
  have hdigits : digits = rest.reverse ++ List.replicate n '0' := by
    rw [← List.reverse_reverse digits, ← hsplit, List.reverse_append, List.reverse_replicate]
  have hlength : digits.length - n = rest.reverse.length := by
    rw [hdigits, List.length_append, List.length_replicate, Nat.add_sub_cancel]
  rw [hlength]
  conv => rhs; rw [hdigits]
  rw [List.take_left, ← hdigits]

/-- The zeros at the end of a number's digits are counted in the power of ten instead. -/
theorem dropZeros_spec (c : Nat) (p : Int) :
    (dropZeros c p).1.all Char.isDigit = true ∧
      (Numeral.digitsValue (dropZeros c p).1 : ℚ) * 10 ^ (dropZeros c p).2 = c * 10 ^ p := by
  have hdigits : ∀ d ∈ Nat.toDigits 10 c, d.isDigit = true :=
    fun d hd ↦ Nat.isDigit_of_mem_toDigits (by decide) (by decide) hd
  have hvalue := digitsValue_toDigits c
  rw [dropZeros]
  dsimp only
  generalize Nat.toDigits 10 c = digits at *
  generalize hn : (digits.reverse.takeWhile (· == '0')).length = n
  constructor
  · rw [List.all_eq_true]
    exact fun d hd ↦ hdigits d (List.mem_of_mem_take hd)
  · rw [take_append_zeros digits hn, digitsValue_append_zeros] at hvalue
    rw [← hvalue, zpow_add₀ (by norm_num), zpow_natCast]
    push_cast
    ring

/-- The shortest decimal is what the search ends with. -/
theorem shortest_eq (tie : Tie) (m : Nat) (q : Int) :
    shortest tie m q =
      dropZeros
        ((interval m q).search tie
          (floorLog10 ((interval m q).value * (interval m q).num) (interval m q).den) 17).1
        ((interval m q).search tie
          (floorLog10 ((interval m q).value * (interval m q).num) (interval m q).den) 17).2 := by
  have hshortest : shortest = fun tie m q ↦
      dropZeros
        ((interval m q).search tie
          (floorLog10 ((interval m q).value * (interval m q).num) (interval m q).den) 17).1
        ((interval m q).search tie
          (floorLog10 ((interval m q).value * (interval m q).num) (interval m q).den) 17).2 := by
    delta shortest
    -- The number of digits is a variable here, lest comparing the two sides starts the search.
    obtain ⟨digits, hdigits⟩ : ∃ digits, digits = 17 := ⟨17, rfl⟩
    rw [← hdigits]
  rw [hshortest]

/-- Numbers in the interval around a value are neither too small nor too large for the format. -/
theorem HasPlace.bounds_of_contains {m k s : Nat} {q u : Int} {y : ℚ} (h : HasPlace m q k s u)
    (hs : 0 < s) (htop : (m.log2 : Int) + q < 1024) (hin : (interval m q).Contains y) :
    (2 : ℚ) ^ (-1076 : Int) < y ∧ y < 2 ^ (1024 : Int) := by
  obtain ⟨⟨hlow, hhigh⟩, -⟩ := (h.contains_iff hs).mp hin
  have hquarter : (0 : ℚ) < 2 ^ (u - 2) := by positivity
  have hone : (1 : ℚ) ≤ s := by exact_mod_cast hs
  have hsmall : (s : ℚ) + 1 ≤ 2 ^ 53 := by exact_mod_cast h.small
  have hhalf : (lowerHalf s u : ℚ) ≤ 2 := by exact_mod_cast lowerHalf_le s u
  have hlast := h.last
  constructor
  · calc (2 : ℚ) ^ (-1076 : Int) ≤ 2 ^ (u - 2) := zpow_le_zpow_right₀ one_le_two (by omega)
      _ = 1 * 2 ^ (u - 2) := (one_mul _).symm
      _ < (4 * s - lowerHalf s u) * 2 ^ (u - 2) := by
          apply mul_lt_mul_of_pos_right _ hquarter
          linarith
      _ ≤ y := hlow
  · have htopmost : u ≤ 971 := by
      have hplace := h.place
      rw [lastPlace] at hplace
      omega
    calc y ≤ (4 * s + 2) * 2 ^ (u - 2) := hhigh
      _ < 2 ^ 55 * 2 ^ (u - 2) := by
          apply mul_lt_mul_of_pos_right _ hquarter
          linarith
      _ = 2 ^ (u + 53) := (HasPlace.zpow_eq u (u + 53) 55 (by omega)).symm
      _ ≤ 2 ^ (1024 : Int) := zpow_le_zpow_right₀ one_le_two (by omega)

/-- The shortest decimal of a value is written in digits and lies in the interval around it. -/
theorem shortest_spec {negative : Bool} {m : Nat} {q : Int} (tie : Tie)
    (h : IsBinary64 (finite negative m q)) (hm : 0 < m) :
    (shortest tie m q).1 ≠ [] ∧ (shortest tie m q).1.all Char.isDigit = true ∧
      (interval m q).Contains
        (Numeral.digitsValue (shortest tie m q).1 * 10 ^ (shortest tie m q).2) := by
  obtain ⟨-, htop, k, s, u, hplace⟩ := h.exists_hasPlace hm
  have hpos := hplace.pos hm
  have hden : 0 < (interval m q).den := by
    rw [hplace.interval_eq]
    exact (twoPow_spec (u - 2)).2.1
  have hnearest := @HasPlace.exists_nearest? m k s q u tie hplace hpos
  have hfound := Interval.contains_search hden hnearest 16
  rw [← (dropZeros_spec _ _).2, ← shortest_eq] at hfound
  refine ⟨?_, ?_, hfound⟩
  · intro hnil
    rw [hnil] at hfound
    obtain ⟨hlow, -⟩ := hplace.bounds_of_contains hpos htop hfound
    rw [Numeral.digitsValue, List.foldl_nil, Nat.cast_zero, zero_mul] at hlow
    exact absurd hlow (not_lt.mpr (by positivity))
  · rw [shortest_eq]
    exact (dropZeros_spec _ _).1

/-- A decimal in the interval around a value is read as that value. -/
theorem ofDecimal_of_contains {negative : Bool} {m c : Nat} {q e : Int}
    (h : IsBinary64 (finite negative m q)) (hm : 0 < m)
    (hin : (interval m q).Contains (c * 10 ^ e)) :
    ofDecimal negative c e = finite negative m q := by
  obtain ⟨-, htop, k, s, u, hplace⟩ := h.exists_hasPlace hm
  have hpos := hplace.pos hm
  obtain ⟨hlow, hhigh⟩ := hplace.bounds_of_contains hpos htop hin
  have hcoefficient : c ≠ 0 := by
    rintro rfl
    rw [Nat.cast_zero, zero_mul] at hlow
    exact absurd hlow (not_lt.mpr (by positivity))
  have hone : (1 : ℚ) ≤ c := by exact_mod_cast Nat.one_le_iff_ne_zero.mpr hcoefficient
  obtain ⟨hn, hd, hvalue⟩ := tenPow_spec e
  obtain ⟨hlargest, -⟩ := @two_zpow_le_ten_zpow 1024 400 (by decide +kernel)
  obtain ⟨-, hsmallest⟩ := @two_zpow_le_ten_zpow 1076 400 (by decide +kernel)
  have hnotLarge : ¬ 400 < e := by
    intro hlarge
    apply not_le.mpr hhigh
    calc (2 : ℚ) ^ (1024 : Int) ≤ 10 ^ (400 : Int) := hlargest
      _ ≤ 10 ^ e := zpow_le_zpow_right₀ (by norm_num) (by omega)
      _ = 1 * 10 ^ e := (one_mul _).symm
      _ ≤ c * 10 ^ e := by gcongr
  have hnotSmall : ¬ e < -400 - c.log2 := by
    intro hsmall
    have hbits : (c : ℚ) ≤ 10 ^ ((c.log2 + 1 : Nat) : Int) := by
      have hlt : c < 2 ^ (c.log2 + 1) := Nat.lt_log2_self
      have hle : 2 ^ (c.log2 + 1) ≤ 10 ^ (c.log2 + 1) := Nat.pow_le_pow_left (by decide) _
      rw [zpow_natCast]
      exact_mod_cast hlt.le.trans hle
    apply not_le.mpr hlow
    calc (c : ℚ) * 10 ^ e ≤ 10 ^ ((c.log2 + 1 : Nat) : Int) * 10 ^ e := by gcongr
      _ = 10 ^ (((c.log2 + 1 : Nat) : Int) + e) := (zpow_add₀ (by norm_num) _ _).symm
      _ ≤ 10 ^ (-400 : Int) := zpow_le_zpow_right₀ (by norm_num) (by omega)
      _ ≤ 2 ^ (-1076 : Int) := hsmallest
  rw [ofDecimal, if_neg hcoefficient, if_neg hnotLarge, if_neg hnotSmall]
  apply round_of_contains (Nat.mul_pos (Nat.pos_of_ne_zero hcoefficient) hn) hd h hm
  rw [Nat.cast_mul, mul_div_assoc, hvalue]
  exact hin

end FilterPipeline.Double
