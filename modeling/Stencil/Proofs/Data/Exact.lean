import Mathlib.Algebra.Order.Field.Power
import Mathlib.Algebra.Order.Field.Rat
import Mathlib.Data.Rat.Cast.Order
import Mathlib.Tactic.FieldSimp
import Mathlib.Tactic.NormNum
import Mathlib.Tactic.Positivity
import Mathlib.Tactic.Ring
import Stencil.Value

/-! # Numbers as exact rationals

What a number of the data stands for, exactly. A double is a whole number just when reading it as an integer
gives that number, and whole numbers too large for a word with a sign stay large as doubles. -/

namespace Stencil

/-! ### Fractions -/

namespace Fraction

/-- The rational number that a fraction is. -/
def value (f : Fraction) : ℚ := f.num / f.den

theorem value_scale {f : Fraction} {base : Nat} (hbase : 0 < base) (e : Int) :
    (f.scale base e).value = f.value * (base : ℚ) ^ e := by
  have hbase' : (base : ℚ) ≠ 0 := by exact_mod_cast hbase.ne'
  unfold scale value
  split
  · next he =>
    obtain ⟨n, rfl⟩ : ∃ n : Nat, e = -(n : Int) := ⟨(-e).toNat, by omega⟩
    simp only [neg_neg, Int.toNat_natCast, zpow_neg, zpow_natCast, Nat.pow_eq]
    push_cast
    field_simp
  · next he =>
    obtain ⟨n, rfl⟩ : ∃ n : Nat, e = (n : Int) := ⟨e.toNat, by omega⟩
    simp only [Int.toNat_natCast, zpow_natCast, Nat.pow_eq]
    push_cast
    ring

theorem den_scale_pos {f : Fraction} (hden : 0 < f.den) {base : Nat} (hbase : 0 < base) (e : Int) :
    0 < (f.scale base e).den := by
  unfold scale
  split
  · exact Nat.mul_pos hden (Nat.pow_pos hbase)
  · exact hden

/-- A fraction is a whole number just when its denominator divides its numerator. -/
theorem value_eq_natCast_iff {f : Fraction} (hden : 0 < f.den) (n : Nat) :
    f.value = n ↔ f.num % f.den = 0 ∧ f.num / f.den = n := by
  have hden' : (f.den : ℚ) ≠ 0 := by exact_mod_cast hden.ne'
  rw [value, div_eq_iff hden']
  constructor
  · intro h
    have h : f.num = n * f.den := by exact_mod_cast h
    rw [h]
    exact ⟨Nat.mul_mod_left n f.den, Nat.mul_div_cancel n hden⟩
  · rintro ⟨hmod, rfl⟩
    exact_mod_cast (Nat.div_mul_cancel (Nat.dvd_of_mod_eq_zero hmod)).symm

theorem floor_le_round (f : Fraction) : f.floor ≤ f.round := by
  simp only [floor, round]
  split
  · exact Nat.le_succ _
  · exact Nat.le_refl _

end Fraction

/-! ### Doubles -/

namespace Double

/-- The rational number that a double is. -/
def value (d : Double) : ℚ := (if d.negative then -1 else 1) * d.significand * 2 ^ d.exponent

theorem value_magnitude (d : Double) : d.magnitude.value = d.significand * 2 ^ d.exponent := by
  rw [magnitude, Fraction.value_scale (by decide), Fraction.value]
  simp

/-- The integer that a double is read as is the number that it is. -/
theorem toInt?_eq_some_iff (d : Double) (k : Int) : d.toInt? = some k ↔ d.value = k := by
  have hden : 0 < d.magnitude.den := Fraction.den_scale_pos Nat.one_pos (by decide) _
  have hwhole := Fraction.value_eq_natCast_iff hden
  have hvalue : d.value = if d.negative then -d.magnitude.value else d.magnitude.value := by
    rw [value, value_magnitude]
    split <;> ring
  have hmagnitude : d.value = k → d.magnitude.value = k.natAbs := by
    have hpos : 0 ≤ d.magnitude.value := by
      rw [value_magnitude]
      positivity
    intro h
    rw [Nat.cast_natAbs, Int.cast_abs, ← h, hvalue]
    split <;> simp [abs_of_nonneg hpos]
  unfold toInt?
  by_cases hmod : d.magnitude.num % d.magnitude.den = 0
  · have hfloor : d.magnitude.value = (d.magnitude.num / d.magnitude.den : Nat) := (hwhole _).2 ⟨hmod, rfl⟩
    rw [if_pos hmod, Option.some_inj, hvalue, hfloor]
    split
    · rw [← Int.cast_inj (α := ℚ), Int.cast_neg, Int.cast_natCast]
    · rw [← Int.cast_inj (α := ℚ), Int.cast_natCast]
  · rw [if_neg hmod]
    exact ⟨nofun, fun h => absurd ((hwhole _).1 (hmagnitude h)).1 hmod⟩

/-- The significand of a number of `2 ^ 63` or more fills its upper half. -/
theorem exponentOf_natCast {n : Nat} (hn : 2 ^ 63 ≤ n) :
    ∃ g : Nat, 11 ≤ g ∧ exponentOf ⟨n, 1⟩ = g ∧ 2 ^ 52 * 2 ^ g ≤ n := by
  have hn0 : n ≠ 0 := by omega
  have hlog : 63 ≤ n.log2 := (Nat.le_log2 hn0).2 hn
  obtain ⟨g, hg⟩ : ∃ g, n.log2 = g + 52 := ⟨n.log2 - 52, by omega⟩
  have hfull : 2 ^ 52 * 2 ^ g ≤ n := by
    rw [← Nat.pow_add, Nat.add_comm, ← hg]
    exact Nat.log2_self_le hn0
  have hguess : max ((n.log2 : Int) - (Nat.log2 1 : Int) - 53) leastExponent = ((g - 1 : Nat) : Int) := by
    have hone : Nat.log2 1 = 0 := by decide
    rw [hone, leastExponent]
    omega
  have hbig : ¬ n / 2 ^ (g - 1) < significandBound := by
    rw [Nat.not_lt, Nat.le_div_iff_mul_le (by positivity)]
    calc significandBound * 2 ^ (g - 1) =
      2 ^ 52 * 2 ^ (g - 1 + 1) := by rw [Nat.pow_succ]; simp only [significandBound]; ring
      _ = 2 ^ 52 * 2 ^ g := by rw [Nat.sub_add_cancel (by omega)]
      _ ≤ n := hfull
  refine ⟨g, by omega, ?_, hfull⟩
  have hscaled : ((⟨n, 1⟩ : Fraction).scale 2 (-((g - 1 : Nat) : Int))).floor = n / 2 ^ (g - 1) := by
    rw [Fraction.scale, if_pos (by omega), Fraction.floor]
    simp
  simp only [exponentOf]
  rw [hguess, hscaled, if_neg hbig]
  omega

theorem le_value_of_ofFraction? {n : Nat} (hn : 2 ^ 63 ≤ n) {d : Double}
    (h : ofFraction? false ⟨n, 1⟩ = some d) :
    (2 : ℚ) ^ 63 ≤ d.value := by
  obtain ⟨g, hg, hexponent, hfull⟩ := exponentOf_natCast hn
  have hn0 : n ≠ 0 := by omega
  have hrounded : 2 ^ 52 ≤ ((⟨n, 1⟩ : Fraction).scale 2 (-(g : Int))).round := by
    refine le_trans ?_ (Fraction.floor_le_round _)
    rw [Fraction.scale, if_pos (by omega), Fraction.floor]
    simp only [neg_neg, Int.toNat_natCast, Nat.one_mul, Nat.pow_eq]
    exact (Nat.le_div_iff_mul_le (by positivity)).2 hfull
  have hlarge : ∀ (s : Nat) (e : Int), 2 ^ 52 ≤ s → 11 ≤ e → (2 : ℚ) ^ 63 ≤ value ⟨false, s, e⟩ := by
    intro s e hs he
    have hs : (2 : ℚ) ^ 52 ≤ s := by exact_mod_cast hs
    have he : (2 : ℚ) ^ (11 : Int) ≤ 2 ^ e := zpow_le_zpow_right₀ (by norm_num) he
    calc (2 : ℚ) ^ 63 = (2 : ℚ) ^ 52 * (2 : ℚ) ^ (11 : Int) := by norm_num
      _ ≤ (s : ℚ) * (2 : ℚ) ^ e := by gcongr
      _ = value ⟨false, s, e⟩ := by simp [value]
  unfold ofFraction? at h
  rw [if_neg hn0, hexponent] at h
  dsimp only at h
  split at h
  · next hcarry =>
    -- A significand that is rounded up to the bound is halved.
    split at h
    · cases h
    · cases h
      exact hlarge _ _ (by rw [hcarry, significandBound]; norm_num) (by dsimp only; omega)
  · split at h
    · cases h
    · cases h
      exact hlarge _ _ hrounded (by dsimp only; omega)

/-- A whole number of `2 ^ 63` or more stays at least that large as a double. -/
theorem le_value_of_ofDecimal? {n : Nat} (hn : 2 ^ 63 ≤ n) {d : Double} (h : ofDecimal? false n 0 = some d) :
    (2 : ℚ) ^ 63 ≤ d.value := by
  have hn0 : n ≠ 0 := by omega
  have hunscaled : (⟨n, 1⟩ : Fraction).scale 10 0 = ⟨n, 1⟩ := by simp [Fraction.scale]
  have hdigits : ¬ ((0 : Int) + (Nat.toDigits 10 n).length < -400) := by omega
  simp only [ofDecimal?, hunscaled, hn0, hdigits, decide_false, Bool.or_self,
    Bool.false_eq_true, if_false] at h
  split at h
  · cases h
  · exact le_value_of_ofFraction? hn h

end Double

end Stencil
