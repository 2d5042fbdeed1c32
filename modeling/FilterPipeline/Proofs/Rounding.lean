import FilterPipeline.Number.Shortest
import Mathlib.Algebra.Order.Field.Power
import Mathlib.Data.Int.Log
import Mathlib.Data.Nat.Factorization.Basic
import Mathlib.Data.Rat.Floor
import Mathlib.Tactic.FieldSimp
import Mathlib.Tactic.Linarith
import Mathlib.Tactic.NormNum
import Mathlib.Tactic.Positivity
import Mathlib.Tactic.Ring

/-!
# Rounding

Numbers are rounded as fractions of natural numbers, and the interval around a value is one of
multiples of such a fraction. Here both are read as rational numbers. Main statement:
`round_of_contains`, every fraction in the interval around a value rounds to that value.
-/

namespace FilterPipeline.Double

/-! ### Powers as fractions -/

private theorem power_spec {b : Nat} (hb : 0 < b) (q : Int) {n d : Nat}
    (h : (if 0 ≤ q then (Nat.pow b q.toNat, 1) else (1, Nat.pow b (-q).toNat)) = (n, d)) :
    0 < n ∧ 0 < d ∧ (n : ℚ) / d = (b : ℚ) ^ q := by
  split at h
  · next hq =>
    obtain ⟨k, rfl⟩ := Int.eq_ofNat_of_zero_le hq
    rw [Prod.mk.injEq, Int.toNat_natCast] at h
    obtain ⟨rfl, rfl⟩ := h
    refine ⟨Nat.pow_pos hb, Nat.one_pos, ?_⟩
    rw [Nat.cast_one, div_one, zpow_natCast]
    exact Nat.cast_pow b k
  · next hq =>
    obtain ⟨k, hk⟩ : ∃ k : Nat, -q = k := ⟨(-q).toNat, by omega⟩
    rw [Prod.mk.injEq, hk, Int.toNat_natCast] at h
    obtain ⟨rfl, rfl⟩ := h
    have hq : q = -(k : Int) := by omega
    refine ⟨Nat.one_pos, Nat.pow_pos hb, ?_⟩
    rw [hq, zpow_neg, zpow_natCast, Nat.cast_one, one_div]
    exact congrArg _ (Nat.cast_pow b k)

/-- A power of two is the fraction that it is computed as. -/
theorem twoPow_spec (q : Int) :
    0 < (twoPow q).1 ∧ 0 < (twoPow q).2 ∧ ((twoPow q).1 : ℚ) / (twoPow q).2 = 2 ^ q :=
  power_spec (by decide) q rfl

/-- A power of ten is the fraction that it is computed as. -/
theorem tenPow_spec (p : Int) :
    0 < (tenPow p).1 ∧ 0 < (tenPow p).2 ∧ ((tenPow p).1 : ℚ) / (tenPow p).2 = 10 ^ p :=
  power_spec (by decide) p rfl

/-! ### Places -/

private theorem log2_bounds {n : Nat} (h : 0 < n) :
    (2 : ℚ) ^ (n.log2 : Int) ≤ n ∧ (n : ℚ) < 2 ^ ((n.log2 : Int) + 1) := by
  constructor
  · rw [zpow_natCast]
    exact_mod_cast Nat.log2_self_le h.ne'
  · rw [← Nat.cast_succ, zpow_natCast]
    exact_mod_cast Nat.lt_log2_self

/-- The exponent of the greatest power of two that a fraction reaches is its logarithm. -/
theorem floorLog2_eq {num den : Nat} (hnum : 0 < num) (hden : 0 < den) :
    floorLog2 num den = Int.log 2 ((num : ℚ) / den) := by
  have hnum' : (0 : ℚ) < num := Nat.cast_pos.mpr hnum
  have hden' : (0 : ℚ) < den := Nat.cast_pos.mpr hden
  have hpos : (0 : ℚ) < (num : ℚ) / den := div_pos hnum' hden'
  have hlog : ∀ e : Int, (2 : ℚ) ^ e ≤ (num : ℚ) / den → (num : ℚ) / den < 2 ^ (e + 1) →
      e = Int.log 2 ((num : ℚ) / den) := by
    intro e hlow hhigh
    have hle := (@Int.zpow_le_iff_le_log ℚ _ _ _ _ 2 (by decide) e _ hpos).mp hlow
    have hlt := (@Int.lt_zpow_iff_log_lt ℚ _ _ _ _ 2 (by decide) (e + 1) _ hpos).mp hhigh
    omega
  obtain ⟨hnumLow, hnumHigh⟩ := log2_bounds hnum
  obtain ⟨hdenLow, hdenHigh⟩ := log2_bounds hden
  -- The quotient lies within a factor of two of the quotient of the powers below both numbers.
  have hlow : (2 : ℚ) ^ ((num.log2 : Int) - den.log2 - 1) ≤ (num : ℚ) / den := by
    rw [le_div_iff₀ hden']
    calc (2 : ℚ) ^ ((num.log2 : Int) - den.log2 - 1) * den
        ≤ 2 ^ ((num.log2 : Int) - den.log2 - 1) * 2 ^ ((den.log2 : Int) + 1) := by gcongr
      _ = 2 ^ (num.log2 : Int) := by
          rw [← zpow_add₀ two_ne_zero]
          congr 1
          ring
      _ ≤ num := hnumLow
  have hhigh : (num : ℚ) / den < 2 ^ ((num.log2 : Int) - den.log2 + 1) := by
    rw [div_lt_iff₀ hden']
    calc (num : ℚ) < 2 ^ ((num.log2 : Int) + 1) := hnumHigh
      _ = 2 ^ ((num.log2 : Int) - den.log2 + 1) * 2 ^ (den.log2 : Int) := by
          rw [← zpow_add₀ two_ne_zero]
          congr 1
          ring
      _ ≤ 2 ^ ((num.log2 : Int) - den.log2 + 1) * den := by gcongr
  obtain ⟨-, hd, hvalue⟩ := twoPow_spec ((num.log2 : Int) - den.log2)
  have hiff : den * (twoPow ((num.log2 : Int) - den.log2)).1 ≤
      num * (twoPow ((num.log2 : Int) - den.log2)).2 ↔
        (2 : ℚ) ^ ((num.log2 : Int) - den.log2) ≤ (num : ℚ) / den := by
    rw [← hvalue, div_le_div_iff₀ (Nat.cast_pos.mpr hd) hden', mul_comm _ (den : ℚ)]
    exact_mod_cast Iff.rfl
  rw [floorLog2]
  dsimp only
  split
  · next hle => exact hlog _ (hiff.mp hle) hhigh
  · next hnot =>
    apply hlog _ hlow
    rw [Int.sub_add_cancel]
    exact not_le.mp fun hle ↦ hnot (hiff.mpr hle)

private theorem roundHalfEven_eq {num den s : Nat} (hden : 0 < den)
    (hlow : (s : ℚ) - 1 / 2 ≤ (num : ℚ) / den) (hhigh : (num : ℚ) / den ≤ s + 1 / 2)
    (hodd : s % 2 = 1 → (s : ℚ) - 1 / 2 < (num : ℚ) / den ∧ (num : ℚ) / den < s + 1 / 2) :
    roundHalfEven num den = s := by
  have hden' : (0 : ℚ) < den := Nat.cast_pos.mpr hden
  have hlow' : 2 * (s * den) ≤ 2 * num + den := by
    have hmul := (le_div_iff₀ hden').mp hlow
    have hcast : (2 * (s * den) : ℚ) ≤ 2 * num + den := by linarith
    exact_mod_cast hcast
  have hhigh' : 2 * num ≤ 2 * (s * den) + den := by
    have hmul := (div_le_iff₀ hden').mp hhigh
    have hcast : (2 * num : ℚ) ≤ 2 * (s * den) + den := by linarith
    exact_mod_cast hcast
  have hodd' : s % 2 = 1 → 2 * (s * den) < 2 * num + den ∧ 2 * num < 2 * (s * den) + den := by
    intro hs
    have hmulLow := (lt_div_iff₀ hden').mp (hodd hs).1
    have hmulHigh := (div_lt_iff₀ hden').mp (hodd hs).2
    have hcastLow : (2 * (s * den) : ℚ) < 2 * num + den := by linarith
    have hcastHigh : (2 * num : ℚ) < 2 * (s * den) + den := by linarith
    exact ⟨by exact_mod_cast hcastLow, by exact_mod_cast hcastHigh⟩
  have hdivision := Nat.div_add_mod num den
  have hmod := Nat.mod_lt num hden
  rw [roundHalfEven]
  generalize num / den = q at *
  generalize num % den = r at *
  -- The whole number is the quotient or the one behind it.
  have hle : s ≤ q + 1 := by
    by_contra hgt
    have hmul : (q + 2) * den ≤ s * den := Nat.mul_le_mul_right den (by omega)
    rw [Nat.add_mul, Nat.mul_comm q den] at hmul
    omega
  have hge : q ≤ s := by
    by_contra hlt
    have hmul : (s + 1) * den ≤ q * den := Nat.mul_le_mul_right den (by omega)
    rw [Nat.add_mul, Nat.one_mul, Nat.mul_comm q den] at hmul
    omega
  obtain rfl | rfl : s = q ∨ s = q + 1 := by omega
  · rw [Nat.mul_comm s den] at hlow' hhigh' hodd'
    split
    · rfl
    · split <;> omega
  · rw [Nat.add_mul, Nat.one_mul, Nat.mul_comm q den] at hlow' hhigh' hodd'
    split
    · omega
    · split <;> omega

private theorem roundHalfEven_scaled {num den s : Nat} {u : Int} (hden : 0 < den)
    (hlow : ((s : ℚ) - 1 / 2) * 2 ^ u ≤ (num : ℚ) / den)
    (hhigh : (num : ℚ) / den ≤ (s + 1 / 2) * 2 ^ u)
    (hodd : s % 2 = 1 →
      ((s : ℚ) - 1 / 2) * 2 ^ u < (num : ℚ) / den ∧ (num : ℚ) / den < (s + 1 / 2) * 2 ^ u) :
    roundHalfEven (num * (twoPow u).2) (den * (twoPow u).1) = s := by
  obtain ⟨hn, -, hvalue⟩ := twoPow_spec u
  have hpos : (0 : ℚ) < 2 ^ u := by positivity
  have hscaled : ((num * (twoPow u).2 : Nat) : ℚ) / ((den * (twoPow u).1 : Nat) : ℚ) =
      (num : ℚ) / den / 2 ^ u := by
    rw [← hvalue, Nat.cast_mul, Nat.cast_mul, div_div_div_eq]
  apply roundHalfEven_eq (Nat.mul_pos hden hn)
  · rwa [hscaled, le_div_iff₀ hpos]
  · rwa [hscaled, div_le_iff₀ hpos]
  · rwa [hscaled, lt_div_iff₀ hpos, div_lt_iff₀ hpos]

private theorem lastPlace_floorLog2 {num den : Nat} {u : Int} (hnum : 0 < num) (hden : 0 < den)
    (hu : -1074 ≤ u) (hlow : u = -1074 ∨ (2 : ℚ) ^ (u + 52) ≤ (num : ℚ) / den)
    (hhigh : (num : ℚ) / den < 2 ^ (u + 53)) : lastPlace (floorLog2 num den) = u := by
  have hpos : (0 : ℚ) < (num : ℚ) / den := div_pos (Nat.cast_pos.mpr hnum) (Nat.cast_pos.mpr hden)
  have hlt := (@Int.lt_zpow_iff_log_lt ℚ _ _ _ _ 2 (by decide) (u + 53) _ hpos).mp hhigh
  rw [← floorLog2_eq hnum hden] at hlt
  rw [lastPlace]
  rcases hlow with rfl | hlow
  · omega
  · have hle := (@Int.zpow_le_iff_le_log ℚ _ _ _ _ 2 (by decide) (u + 52) _ hpos).mp hlow
    rw [← floorLog2_eq hnum hden] at hle
    omega

/-! ### Values of the format -/

/-- The finite values of the format: the zeros, and the odd multiples of powers of two that reach
neither below their last place nor beyond the greatest exponent. -/
def IsBinary64 : Double → Prop
  | finite _ m q =>
    (m = 0 ∧ q = 0) ∨ (m % 2 = 1 ∧ lastPlace (m.log2 + q) ≤ q ∧ (m.log2 : Int) + q < 1024)
  | infinite _ | nan => False

/-- Whether a double is a value of the format is decided by its significand and its exponent. -/
instance : (x : Double) → Decidable x.IsBinary64
  | finite _ _ _ => inferInstanceAs (Decidable (_ ∨ _))
  | infinite _ | nan => inferInstanceAs (Decidable False)

private theorem reduce_eq {m : Nat} (hm : m % 2 = 1) {k fuel : Nat} (h : k ≤ fuel) (u : Int) :
    reduce fuel (m * 2 ^ k) u = (m, u + k) := by
  induction k generalizing fuel u with
  | zero =>
    cases fuel with
    | zero => simp [reduce]
    | succ fuel => simp [reduce, hm]
  | succ k ih =>
    obtain ⟨fuel, rfl⟩ : ∃ n, fuel = n + 1 := ⟨fuel - 1, by omega⟩
    have hdouble : m * 2 ^ (k + 1) = m * 2 ^ k * 2 := by rw [Nat.pow_succ, Nat.mul_assoc]
    rw [hdouble, reduce, if_pos (Nat.mul_mod_left _ 2), Nat.mul_div_cancel _ (by decide),
      ih (by omega)]
    congr 1
    omega

/-- The logarithm of a number with factors of two. -/
theorem log2_mul_pow {m : Nat} (hm : 0 < m) (k : Nat) : (m * 2 ^ k).log2 = m.log2 + k := by
  have hpow := Nat.two_pow_pos k
  rw [Nat.log2_eq_iff (Nat.mul_pos hm hpow).ne', Nat.pow_add, Nat.add_right_comm, Nat.pow_add]
  exact ⟨Nat.mul_le_mul_right _ (Nat.log2_self_le hm.ne'),
    Nat.mul_lt_mul_of_pos_right Nat.lt_log2_self hpow⟩

/-- A value is the same with factors of two in the mantissa or in the exponent. -/
theorem ofScaled_mul_pow (negative : Bool) {m : Nat} (hm : m % 2 = 1) (k : Nat) (u : Int) :
    ofScaled negative (m * 2 ^ k) u = finite negative m (u + k) := by
  have hpos : 0 < m := by omega
  have hne : m * 2 ^ k ≠ 0 := (Nat.mul_pos hpos (Nat.two_pow_pos k)).ne'
  have hfuel : k ≤ (m * 2 ^ k).log2 := by
    rw [log2_mul_pow hpos]
    omega
  rw [ofScaled, if_neg hne, reduce_eq hm hfuel]

/-- A fraction within half a last place of a value rounds to that value; just a half away, if the
significand is even. -/
theorem round_eq {negative : Bool} {num den m k : Nat} {u : Int} (hnum : 0 < num) (hden : 0 < den)
    (hm : m % 2 = 1) (htop : (m.log2 : Int) + (u + k) < 1024) (hu : -1074 ≤ u)
    (hplaceLow : u = -1074 ∨ (2 : ℚ) ^ (u + 52) ≤ (num : ℚ) / den)
    (hplaceHigh : (num : ℚ) / den < 2 ^ (u + 53))
    (hlow : (((m * 2 ^ k : Nat) : ℚ) - 1 / 2) * 2 ^ u ≤ (num : ℚ) / den)
    (hhigh : (num : ℚ) / den ≤ (((m * 2 ^ k : Nat) : ℚ) + 1 / 2) * 2 ^ u)
    (hodd : (m * 2 ^ k) % 2 = 1 →
      (((m * 2 ^ k : Nat) : ℚ) - 1 / 2) * 2 ^ u < (num : ℚ) / den ∧
        (num : ℚ) / den < (((m * 2 ^ k : Nat) : ℚ) + 1 / 2) * 2 ^ u) :
    round negative num den = finite negative m (u + k) := by
  have hpos : 0 < m := by omega
  rw [round, if_neg hnum.ne', lastPlace_floorLog2 hnum hden hu hplaceLow hplaceHigh]
  dsimp only
  rw [roundHalfEven_scaled hden hlow hhigh hodd, log2_mul_pow hpos, if_neg (by omega),
    ofScaled_mul_pow negative hm]

/-! ### The interval around a value -/

/-- Whether a number lies in an interval. -/
def Interval.Contains (i : Interval) (y : ℚ) : Prop :=
  (i.low * ((i.num : ℚ) / i.den) ≤ y ∧ y ≤ i.high * ((i.num : ℚ) / i.den)) ∧
    (i.closed = false → i.low * ((i.num : ℚ) / i.den) < y ∧ y < i.high * ((i.num : ℚ) / i.den))

/-- How far the interval around a value reaches below it, in quarters of its last place. -/
def lowerHalf (significand : Nat) (u : Int) : Nat :=
  if significand = firstSignificand ∧ -1074 < u then 1 else 2

/-- It reaches down by at most half the last place. -/
theorem lowerHalf_le (s : Nat) (u : Int) : lowerHalf s u ≤ 2 := by
  rw [lowerHalf]
  split <;> omega

/-- A value `m * 2 ^ q` as the significand `s` at its last place `u`. It has at most 53 bits, and 53
save at the last place of all. -/
structure HasPlace (m : Nat) (q : Int) (k s : Nat) (u : Int) : Prop where
  exponent : q = u + k
  significand : s = m * 2 ^ k
  place : lastPlace (m.log2 + q) = u
  last : -1074 ≤ u
  small : s < 2 ^ 53
  full : u = -1074 ∨ 2 ^ 52 ≤ s

private theorem exists_hasPlace {m : Nat} {q : Int} (hm : 0 < m)
    (hplace : lastPlace (m.log2 + q) ≤ q) :
    ∃ k s u, HasPlace m q k s u := by
  obtain ⟨k, hk⟩ : ∃ k : Nat, q - lastPlace (m.log2 + q) = k :=
    ⟨(q - lastPlace (m.log2 + q)).toNat, by omega⟩
  have hlog := log2_mul_pow hm k
  have hpos : 0 < m * 2 ^ k := Nat.mul_pos hm (Nat.two_pow_pos k)
  refine ⟨k, m * 2 ^ k, lastPlace (m.log2 + q), by omega, rfl, rfl, ?_, ?_, ?_⟩
  · rw [lastPlace]
    omega
  · rw [← Nat.log2_lt hpos.ne', hlog]
    rw [lastPlace] at hk
    omega
  · rw [← Nat.le_log2 hpos.ne', hlog]
    rw [lastPlace] at hk ⊢
    omega

namespace HasPlace

variable {m k s : Nat} {q u : Int} {y : ℚ}

/-- The significand of a value that is no zero is none. -/
theorem pos (h : HasPlace m q k s u) (hm : 0 < m) : 0 < s := by
  rw [h.significand]
  exact Nat.mul_pos hm (Nat.two_pow_pos k)

/-- The interval around a value is given by its significand and its last place. -/
theorem interval_eq (h : HasPlace m q k s u) :
    interval m q = ⟨4 * s - lowerHalf s u, 4 * s, 4 * s + 2, (twoPow (u - 2)).1,
      (twoPow (u - 2)).2, s % 2 == 0⟩ := by
  have hk : (q - u).toNat = k := by
    have := h.exponent
    omega
  rw [interval, h.place, hk, h.significand]
  rfl

/-- The numbers in the interval around a value lie within half a last place of it, or half as far
below where a finer grid begins. -/
theorem contains_iff (h : HasPlace m q k s u) (hs : 0 < s) :
    (interval m q).Contains y ↔
      ((4 * s - lowerHalf s u : ℚ) * 2 ^ (u - 2) ≤ y ∧ y ≤ (4 * s + 2) * 2 ^ (u - 2)) ∧
        (s % 2 = 1 →
          (4 * s - lowerHalf s u : ℚ) * 2 ^ (u - 2) < y ∧ y < (4 * s + 2) * 2 ^ (u - 2)) := by
  have hle : lowerHalf s u ≤ 4 * s := by
    have hhalf := lowerHalf_le s u
    omega
  have hodd : (s % 2 == 0) = false ↔ s % 2 = 1 := by
    rw [beq_eq_false_iff_ne]
    omega
  rw [h.interval_eq, Interval.Contains]
  dsimp only
  rw [(twoPow_spec (u - 2)).2.2, Nat.cast_sub hle, hodd]
  push_cast
  exact Iff.rfl

/-- The powers of two from a quarter of the last place on. -/
theorem zpow_eq (u e : Int) (n : Nat) (h : u - 2 + n = e) : (2 : ℚ) ^ e = 2 ^ n * 2 ^ (u - 2) := by
  rw [← h, zpow_add₀ two_ne_zero, zpow_natCast, mul_comm]

private theorem value_eq (h : HasPlace m q k s u) : (m : ℚ) * 2 ^ q = 4 * s * 2 ^ (u - 2) := by
  have hunit := zpow_eq u u 2 (by omega)
  rw [h.exponent, zpow_add₀ two_ne_zero, hunit, zpow_natCast, h.significand]
  push_cast
  ring

/-- A value lies in the interval around it. -/
theorem contains_value (h : HasPlace m q k s u) (hs : 0 < s) :
    (interval m q).Contains ((m : ℚ) * 2 ^ q) := by
  rw [h.value_eq, h.contains_iff hs]
  have hquarter : (0 : ℚ) < 2 ^ (u - 2) := by positivity
  have hhalf : (0 : ℚ) < lowerHalf s u := by
    rw [lowerHalf]
    split <;> norm_num
  have hlow : (4 * s - lowerHalf s u : ℚ) * 2 ^ (u - 2) < 4 * s * 2 ^ (u - 2) := by
    gcongr
    linarith
  have hhigh : (4 * s * 2 ^ (u - 2) : ℚ) < (4 * s + 2) * 2 ^ (u - 2) := by
    gcongr
    linarith
  exact ⟨⟨hlow.le, hhigh.le⟩, fun _ ↦ ⟨hlow, hhigh⟩⟩

variable {negative : Bool} {num den : Nat}

private theorem round_near (h : HasPlace m q k s u) (hm : m % 2 = 1)
    (htop : (m.log2 : Int) + q < 1024) (hnum : 0 < num) (hden : 0 < den)
    (hgrid : u = -1074 ∨ (2 : ℚ) ^ (u + 52) ≤ (num : ℚ) / den)
    (hin : (interval m q).Contains ((num : ℚ) / den)) :
    round negative num den = finite negative m q := by
  obtain ⟨⟨hlow, hhigh⟩, hstrict⟩ := (h.contains_iff (h.pos (by omega))).mp hin
  have hquarter : (0 : ℚ) < 2 ^ (u - 2) := by positivity
  have hunit := zpow_eq u u 2 (by omega)
  have hlast := zpow_eq u (u + 53) 55 (by omega)
  have hhalf : (4 * s - 2 : ℚ) * 2 ^ (u - 2) ≤ (4 * s - lowerHalf s u) * 2 ^ (u - 2) := by
    gcongr
    exact_mod_cast lowerHalf_le s u
  have hsmall : (4 * s + 2 : ℚ) * 2 ^ (u - 2) < 2 ^ 55 * 2 ^ (u - 2) := by
    have hle : (s : ℚ) + 1 ≤ 2 ^ 53 := by exact_mod_cast h.small
    gcongr
    linarith
  have hexponent := h.exponent
  rw [hexponent]
  apply round_eq hnum hden hm (by omega) h.last hgrid
  · linarith
  · rw [← h.significand, hunit]
    linarith
  · rw [← h.significand, hunit]
    linarith
  · intro hodd
    rw [← h.significand] at hodd
    obtain ⟨hlow', hhigh'⟩ := hstrict hodd
    rw [← h.significand, hunit]
    constructor <;> linarith

private theorem round_below (h : HasPlace m q k s u) (hm : m % 2 = 1)
    (htop : (m.log2 : Int) + q < 1024) (hnum : 0 < num) (hden : 0 < den) (hfine : -1074 < u)
    (hgrid : (num : ℚ) / den < 2 ^ (u + 52)) (hin : (interval m q).Contains ((num : ℚ) / den)) :
    round negative num den = finite negative m q := by
  have hfull : 2 ^ 52 ≤ s := by
    have hfull := h.full
    omega
  obtain ⟨⟨hlow, -⟩, -⟩ := (h.contains_iff (by omega)).mp hin
  have hquarter : (0 : ℚ) < 2 ^ (u - 2) := by positivity
  rw [zpow_eq u (u + 52) 54 (by omega)] at hgrid
  have hfirst : s = 2 ^ 52 := by
    by_contra hne
    have hgt : (2 : ℚ) ^ 52 + 1 ≤ s := by
      have hgt : 2 ^ 52 + 1 ≤ s := by omega
      exact_mod_cast hgt
    have hhalf : (lowerHalf s u : ℚ) ≤ 2 := by exact_mod_cast lowerHalf_le s u
    have hfar : (2 ^ 54 + 2 : ℚ) * 2 ^ (u - 2) ≤ (4 * s - lowerHalf s u) * 2 ^ (u - 2) := by
      gcongr
      linarith
    linarith
  have hhalf : lowerHalf s u = 1 := if_pos ⟨hfirst, hfine⟩
  rw [hhalf, hfirst] at hlow
  push_cast at hlow
  -- On the finer grid the significand is twice as large, and even.
  have hdouble : m * 2 ^ (k + 1) = s * 2 := by rw [h.significand, Nat.pow_succ, Nat.mul_assoc]
  have hnext : m * 2 ^ (k + 1) = 2 ^ 53 := by omega
  have hexponent : q = u - 1 + ((k + 1 : Nat) : Int) := by
    have hexponent := h.exponent
    omega
  have hunit := zpow_eq u (u - 1) 1 (by omega)
  have hlowest := zpow_eq u (u - 1 + 52) 53 (by omega)
  have hhighest := zpow_eq u (u - 1 + 53) 54 (by omega)
  rw [hexponent]
  apply round_eq hnum hden hm (by omega) (by omega)
  · right
    linarith
  · linarith
  · rw [hnext, hunit]
    push_cast
    linarith
  · rw [hnext, hunit]
    push_cast
    linarith
  · intro hodd
    rw [hnext] at hodd
    cases hodd

end HasPlace

/-- A value of the format that is no zero has a place. -/
theorem IsBinary64.exists_hasPlace {negative : Bool} {m : Nat} {q : Int}
    (h : IsBinary64 (finite negative m q)) (hm : 0 < m) :
    m % 2 = 1 ∧ (m.log2 : Int) + q < 1024 ∧ ∃ k s u, HasPlace m q k s u := by
  rcases h with h | ⟨hodd, hplace, htop⟩
  · omega
  · exact ⟨hodd, htop, Double.exists_hasPlace hm hplace⟩

/-- A fraction in the interval around a value rounds to that value. -/
theorem round_of_contains {negative : Bool} {num den m : Nat} {q : Int} (hnum : 0 < num)
    (hden : 0 < den) (h : IsBinary64 (finite negative m q)) (hm : 0 < m)
    (hin : (interval m q).Contains ((num : ℚ) / den)) :
    round negative num den = finite negative m q := by
  obtain ⟨hodd, htop, k, s, u, hplace⟩ := h.exists_hasPlace hm
  by_cases hbelow : -1074 < u ∧ (num : ℚ) / den < 2 ^ (u + 52)
  · exact hplace.round_below hodd htop hnum hden hbelow.1 hbelow.2 hin
  · rw [not_and_or, not_lt, not_lt] at hbelow
    have hlast := hplace.last
    exact hplace.round_near hodd htop hnum hden (hbelow.imp_left (by omega)) hin

/-! ### What rounding gives -/

private theorem roundHalfEven_le {num den B : Nat} (hden : 0 < den) (h : (num : ℚ) / den < B) :
    roundHalfEven num den ≤ B := by
  have hlt : num / den < B := by
    rw [Nat.div_lt_iff_lt_mul hden]
    rw [div_lt_iff₀ (Nat.cast_pos.mpr hden)] at h
    exact_mod_cast h
  rw [roundHalfEven]
  split
  · omega
  · split <;> omega

private theorem isBinary64_ofScaled (negative : Bool) {m : Nat} {u : Int} (hu : -1074 ≤ u)
    (hm : m ≤ 2 ^ 53) (htop : m ≠ 0 → (m.log2 : Int) + u < 1024) :
    IsBinary64 (ofScaled negative m u) := by
  by_cases hzero : m = 0
  · rw [ofScaled, if_pos hzero]
    exact .inl ⟨rfl, rfl⟩
  · obtain ⟨k, n, hn, rfl⟩ := Nat.exists_eq_two_pow_mul_odd hzero
    have hodd : n % 2 = 1 := Nat.odd_iff.mp hn
    have htop' := htop hzero
    rw [Nat.mul_comm, log2_mul_pow (by omega)] at htop'
    rw [Nat.mul_comm, ofScaled_mul_pow negative hodd]
    refine .inr ⟨hodd, ?_, by omega⟩
    have hpos : 0 < n * 2 ^ k := Nat.mul_pos (by omega) (Nat.two_pow_pos k)
    have hbits : n.log2 + k < 54 := by
      rw [← log2_mul_pow (by omega), Nat.log2_lt hpos.ne', Nat.mul_comm]
      omega
    -- A significand of 54 bits is a power of two, so it has a factor to move to the exponent.
    have hshort : k = 0 → n.log2 < 53 := by
      rintro rfl
      rw [Nat.log2_lt (by omega)]
      omega
    rw [lastPlace]
    omega

/-- At its last place a fraction is rounded to at most 53 bits, or to the next power of two. -/
theorem roundHalfEven_lastPlace_le {num den : Nat} (hnum : 0 < num) (hden : 0 < den) {u : Int}
    (hu : lastPlace (floorLog2 num den) = u) :
    roundHalfEven (num * (twoPow u).2) (den * (twoPow u).1) ≤ 2 ^ 53 := by
  obtain ⟨hn, -, hvalue⟩ := twoPow_spec u
  apply roundHalfEven_le (Nat.mul_pos hden hn)
  have hpos : (0 : ℚ) < 2 ^ u := by positivity
  rw [Nat.cast_mul, Nat.cast_mul, ← div_div_div_eq, hvalue, div_lt_iff₀ hpos]
  calc (num : ℚ) / den < 2 ^ (Int.log 2 ((num : ℚ) / den) + 1) :=
        Int.lt_zpow_succ_log_self (by decide) _
    _ ≤ 2 ^ (53 + u) := by
        apply zpow_le_zpow_right₀ one_le_two
        rw [← floorLog2_eq hnum hden]
        rw [lastPlace] at hu
        omega
    _ = ((2 ^ 53 : Nat) : ℚ) * 2 ^ u := by
        rw [zpow_add₀ two_ne_zero]
        norm_num

/-- What rounding gives is a value of the format, if it is finite. -/
theorem isBinary64_round {negative : Bool} {num den : Nat} (hden : 0 < den)
    (h : (round negative num den).isFinite = true) : IsBinary64 (round negative num den) := by
  rw [round] at h ⊢
  dsimp only at h ⊢
  split at h
  · next hzero =>
    rw [if_pos hzero]
    exact .inl ⟨rfl, rfl⟩
  · next hnum =>
    rw [if_neg hnum]
    split at h
    · cases h
    · next htop =>
      rw [if_neg htop]
      have hsignificand := roundHalfEven_lastPlace_le (Nat.pos_of_ne_zero hnum) hden rfl
      refine isBinary64_ofScaled negative ?_ hsignificand fun hne ↦
        not_le.mp fun hle ↦ htop ⟨hne, hle⟩
      rw [lastPlace]
      omega

/-- A fraction below the greatest power of two of the format rounds to a finite value. -/
theorem isFinite_round {negative : Bool} {num den : Nat} (hden : 0 < den)
    (h : (num : ℚ) / den < 2 ^ (1023 : Int)) : (round negative num den).isFinite = true := by
  rw [round]
  dsimp only
  split
  · rfl
  · next hnum =>
    have hnum := Nat.pos_of_ne_zero hnum
    have hpos : (0 : ℚ) < (num : ℚ) / den :=
      div_pos (Nat.cast_pos.mpr hnum) (Nat.cast_pos.mpr hden)
    have hlt := (@Int.lt_zpow_iff_log_lt ℚ _ _ _ _ 2 (by decide) 1023 _ hpos).mp h
    rw [← floorLog2_eq hnum hden] at hlt
    have hsignificand := roundHalfEven_lastPlace_le hnum hden rfl
    generalize roundHalfEven _ _ = m at hsignificand ⊢
    have hbits : m ≠ 0 → m.log2 < 54 := fun hm ↦ by
      rw [Nat.log2_lt hm]
      omega
    rw [if_neg fun hbeyond ↦ ?_]
    · rw [ofScaled]
      split <;> rfl
    · have := hbits hbeyond.1
      rw [lastPlace] at hbeyond
      omega

/-- The finite values of the format are exactly the finite numbers that rounding gives. -/
theorem isBinary64_iff {x : Double} :
    x.IsBinary64 ↔
      x.isFinite = true ∧ ∃ negative num den, 0 < den ∧ x = round negative num den := by
  constructor
  · intro h
    cases x with
    | infinite negative => exact h.elim
    | nan => exact h.elim
    | finite negative m q =>
      refine ⟨rfl, negative, ?_⟩
      rcases Nat.eq_zero_or_pos m with rfl | hm
      · obtain ⟨-, rfl⟩ : 0 = 0 ∧ q = 0 := by
          rcases h with h | h
          · exact h
          · omega
        exact ⟨0, 1, Nat.one_pos, rfl⟩
      · obtain ⟨hn, hd, hvalue⟩ := twoPow_spec q
        refine ⟨m * (twoPow q).1, (twoPow q).2, hd, ?_⟩
        refine (round_of_contains (Nat.mul_pos hm hn) hd h hm ?_).symm
        obtain ⟨-, -, k, s, u, hplace⟩ := h.exists_hasPlace hm
        rw [Nat.cast_mul, mul_div_assoc, hvalue]
        exact hplace.contains_value (hplace.pos hm)
  · rintro ⟨hfinite, negative, num, den, hden, rfl⟩
    exact isBinary64_round hden hfinite

end FilterPipeline.Double
