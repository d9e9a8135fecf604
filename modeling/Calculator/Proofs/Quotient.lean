import Mathlib.Algebra.Order.Floor.Semifield
import Mathlib.Data.Int.Log
import Mathlib.Data.Rat.Floor
import Mathlib.Tactic.FieldSimp
import Mathlib.Tactic.GCongr
import Mathlib.Tactic.Positivity
import Mathlib.Tactic.Ring
import Calculator.Ratio

/-!
# Quotients as rational numbers

What the functions on quotients compute, in terms of the rational number that a quotient stands for.
None of them tells two quotients of the same value apart.

* `Ratio.toRat`: the value of a quotient
* `Ratio.toRat_scale`, `Ratio.floor_eq`, `Ratio.nearest_eq`, `Ratio.log2_eq`, `Ratio.log10_eq`:
  functions on values
* `halfEven`: rounding to a whole number, halves to even
-/

namespace Calculator

/-- The whole number nearest to a rational number that is not negative, halves to even. -/
def halfEven (x : ℚ) : ℕ :=
  if x - ⌊x⌋₊ < 1 / 2 ∨ x - ⌊x⌋₊ = 1 / 2 ∧ ⌊x⌋₊ % 2 = 0 then ⌊x⌋₊ else ⌊x⌋₊ + 1

section HalfEven

variable {x : ℚ} {n : ℕ}

theorem halfEven_natCast (n : ℕ) : halfEven n = n := by
  rw [halfEven, Nat.floor_natCast, sub_self, if_pos (.inl (by norm_num))]

theorem le_halfEven (h : (n : ℚ) ≤ x) : n ≤ halfEven x := by
  have hfloor : n ≤ ⌊x⌋₊ := Nat.le_floor h
  unfold halfEven
  split <;> omega

theorem halfEven_eq_zero (h : x < 1 / 2) : halfEven x = 0 := by
  have hfloor : ⌊x⌋₊ = 0 := Nat.floor_eq_zero.mpr (by linarith)
  rw [halfEven, hfloor, Nat.cast_zero, sub_zero, if_pos (.inl h)]

theorem abs_halfEven_sub_le_half (h : 0 ≤ x) : |(halfEven x : ℚ) - x| ≤ 1 / 2 := by
  have hfloor := Nat.floor_le h
  have hceil := Nat.lt_floor_add_one x
  rw [abs_le]
  unfold halfEven
  split
  · next hdown =>
    have hdown' : x - ⌊x⌋₊ ≤ 1 / 2 := by
      rcases hdown with hlt | ⟨heq, -⟩
      · exact hlt.le
      · exact heq.le
    constructor <;> linarith
  · next hup =>
    have hup' : 1 / 2 ≤ x - ⌊x⌋₊ := by
      by_contra hlt
      exact hup (.inl (not_le.mp hlt))
    push_cast
    constructor <;> linarith

theorem one_le_abs_sub_halfEven (h : n ≠ halfEven x) : (1 : ℚ) ≤ |(n : ℚ) - halfEven x| := by
  have hint : (1 : ℤ) ≤ |(n : ℤ) - halfEven x| := Int.one_le_abs (by omega)
  exact_mod_cast hint

/-- No whole number is nearer. -/
theorem abs_halfEven_sub_le (h : 0 ≤ x) (n : ℕ) : |(halfEven x : ℚ) - x| ≤ |(n : ℚ) - x| := by
  have hhalf := abs_halfEven_sub_le_half h
  by_cases hn : n = halfEven x
  · rw [hn]
  · have hapart := one_le_abs_sub_halfEven hn
    have htriangle := abs_sub_le (n : ℚ) x (halfEven x)
    rw [abs_sub_comm x] at htriangle
    linarith

/-- Of two whole numbers that are equally near the even one is taken. -/
theorem halfEven_even_of_tie (hx : 0 ≤ x) (hne : n ≠ halfEven x)
    (htie : |(n : ℚ) - x| = |(halfEven x : ℚ) - x|) : halfEven x % 2 = 0 := by
  have hexact : |(halfEven x : ℚ) - x| = 1 / 2 := by
    have hhalf := abs_halfEven_sub_le_half hx
    have hapart := one_le_abs_sub_halfEven hne
    have htriangle := abs_sub_le (n : ℚ) x (halfEven x)
    rw [abs_sub_comm x, htie] at htriangle
    linarith
  have hfloor := Nat.floor_le hx
  have hceil := Nat.lt_floor_add_one x
  unfold halfEven at hexact ⊢
  split at hexact
  · next hdown =>
    rw [abs_sub_comm, abs_of_nonneg (sub_nonneg.mpr hfloor)] at hexact
    rw [if_pos hdown]
    exact (hdown.resolve_left (not_lt.mpr hexact.ge)).2
  · next hup =>
    push_cast at hexact
    rw [abs_of_pos (sub_pos.mpr hceil)] at hexact
    have hodd : ⌊x⌋₊ % 2 ≠ 0 := fun heven => hup (.inr ⟨by linarith, heven⟩)
    rw [if_neg hup]
    omega

theorem halfEven_le (hx : 0 ≤ x) (h : x ≤ n) : halfEven x ≤ n := by
  have hnear := abs_halfEven_sub_le hx n
  rw [abs_of_nonneg (sub_nonneg.mpr h)] at hnear
  have hle : (halfEven x : ℚ) ≤ n := by linarith [le_abs_self ((halfEven x : ℚ) - x)]
  exact_mod_cast hle

/-- An even number is reached from half below it on. -/
theorem le_halfEven_iff (heven : n % 2 = 0) (hx : 0 ≤ x) :
    n ≤ halfEven x ↔ (n : ℚ) - 1 / 2 ≤ x := by
  constructor
  · intro h
    have hhalf := (abs_le.mp (abs_halfEven_sub_le_half hx)).2
    have h' : (n : ℚ) ≤ halfEven x := by exact_mod_cast h
    linarith
  · intro h
    have hfloor : n ≤ ⌊x⌋₊ + 1 := by
      have hlt : (n : ℚ) < (⌊x⌋₊ + 2 : ℕ) := by
        push_cast
        linarith [Nat.lt_floor_add_one x]
      have hlt' : n < ⌊x⌋₊ + 2 := by exact_mod_cast hlt
      omega
    unfold halfEven
    split
    · next hdown =>
      by_contra hne
      have hn : n = ⌊x⌋₊ + 1 := by omega
      have hrest : 1 / 2 ≤ x - ⌊x⌋₊ := by
        rw [hn] at h
        push_cast at h
        linarith
      rcases hdown with hlt | ⟨-, hfloor_even⟩
      · linarith
      · omega
    · exact hfloor

end HalfEven

namespace Ratio

/-- The value of a quotient. -/
def toRat (r : Ratio) : ℚ := r.num / r.den

variable (r : Ratio)

theorem den_cast_pos : (0 : ℚ) < r.den := by
  have h := r.den_pos
  exact_mod_cast h

theorem toRat_pos {r : Ratio} (h : r.num ≠ 0) : 0 < r.toRat := by
  have hnum : (0 : ℚ) < r.num := by exact_mod_cast Nat.pos_of_ne_zero h
  exact div_pos hnum r.den_cast_pos

theorem toRat_eq_zero_iff {r : Ratio} : r.toRat = 0 ↔ r.num = 0 := by
  constructor
  · intro h
    by_contra hne
    exact absurd h (toRat_pos hne).ne'
  · intro h
    rw [toRat, h, Nat.cast_zero, zero_div]

theorem toRat_ofNat (n : ℕ) : (ofNat n).toRat = n := by
  rw [toRat, ofNat, Nat.cast_one, div_one]

theorem power_div_power {b : ℕ} (hb : 0 < b) (k : ℤ) :
    (power b k : ℚ) / power b (-k) = (b : ℚ) ^ k := by
  have hb' : (b : ℚ) ≠ 0 := by exact_mod_cast hb.ne'
  unfold power
  rw [Nat.pow_eq, Nat.pow_eq, Nat.cast_pow, Nat.cast_pow, ← zpow_natCast, ← zpow_natCast,
    ← zpow_sub₀ hb']
  congr 1
  omega

theorem toRat_scale {b : ℕ} (hb : 0 < b) (k : ℤ) :
    (r.scale b k hb).toRat = r.toRat * (b : ℚ) ^ k := by
  rw [← power_div_power hb, toRat, toRat, scale, Nat.cast_mul, Nat.cast_mul, mul_div_mul_comm]

theorem floor_eq : r.floor = ⌊r.toRat⌋₊ := (Nat.floor_div_eq_div r.num r.den).symm

theorem nearest_eq : r.nearest = halfEven r.toRat := by
  have hden := r.den_cast_pos
  have hfloor : ⌊r.toRat⌋₊ = r.num / r.den := r.floor_eq.symm
  have hrest : r.toRat - (r.num / r.den : ℕ) = (r.num % r.den : ℕ) / r.den := by
    have hsplit : (r.num : ℚ) = r.den * (r.num / r.den : ℕ) + (r.num % r.den : ℕ) := by
      exact_mod_cast (Nat.div_add_mod r.num r.den).symm
    rw [toRat, sub_eq_iff_eq_add, hsplit]
    field_simp
    ring
  have hlt : r.toRat - (r.num / r.den : ℕ) < 1 / 2 ↔ 2 * (r.num % r.den) < r.den := by
    rw [hrest, div_lt_div_iff₀ hden two_pos, one_mul, mul_comm]
    exact_mod_cast Iff.rfl
  have heq : r.toRat - (r.num / r.den : ℕ) = 1 / 2 ↔ 2 * (r.num % r.den) = r.den := by
    rw [hrest, div_eq_div_iff hden.ne' two_ne_zero, one_mul, mul_comm]
    exact_mod_cast Iff.rfl
  unfold nearest halfEven
  simp only [hfloor, hlt, heq]

theorem reaches_iff {b : ℕ} (hb : 0 < b) (k : ℤ) :
    r.reaches b k = true ↔ (b : ℚ) ^ k ≤ r.toRat := by
  have hpower : (0 : ℚ) < power b (-k) := by exact_mod_cast power_pos hb (-k)
  rw [← power_div_power hb, toRat, div_le_div_iff₀ hpower r.den_cast_pos, reaches,
    decide_eq_true_iff, mul_comm]
  exact_mod_cast Iff.rfl

/-- A quotient lies between the powers that the leading digits of its parts point to. -/
theorem lt_toRat_lt {b i j : ℕ} (hb : 0 < b) {r : Ratio}
    (hnum : b ^ i ≤ r.num ∧ r.num < b ^ (i + 1)) (hden : b ^ j ≤ r.den ∧ r.den < b ^ (j + 1)) :
    (b : ℚ) ^ ((i : ℤ) - j - 1) < r.toRat ∧ r.toRat < (b : ℚ) ^ ((i : ℤ) - j + 1) := by
  have hb' : (b : ℚ) ≠ 0 := by exact_mod_cast hb.ne'
  have hpower : ∀ m n : ℕ, (b : ℚ) ^ ((m : ℤ) - n) = (b ^ m : ℕ) / (b ^ n : ℕ) := by
    intro m n
    rw [zpow_sub₀ hb', zpow_natCast, zpow_natCast, Nat.cast_pow, Nat.cast_pow]
  have hbase : ∀ m : ℕ, (0 : ℚ) < (b ^ m : ℕ) := fun m => by exact_mod_cast Nat.pow_pos hb
  constructor
  · have hexponent : (i : ℤ) - j - 1 = i - (j + 1 : ℕ) := by omega
    rw [hexponent, hpower, toRat]
    exact div_lt_div₀' (by exact_mod_cast hnum.1) (by exact_mod_cast hden.2)
      (lt_of_lt_of_le (hbase i) (by exact_mod_cast hnum.1)) r.den_cast_pos
  · have hexponent : (i : ℤ) - j + 1 = (i + 1 : ℕ) - j := by omega
    rw [hexponent, hpower, toRat]
    exact div_lt_div₀ (by exact_mod_cast hnum.2) (by exact_mod_cast hden.1) (hbase _).le (hbase j)

/-- One comparison settles the exponent of the leading digit. -/
theorem log_eq {b i j : ℕ} (hb : 1 < b) {r : Ratio} (h : r.num ≠ 0)
    (hnum : b ^ i ≤ r.num ∧ r.num < b ^ (i + 1)) (hden : b ^ j ≤ r.den ∧ r.den < b ^ (j + 1)) :
    (if r.reaches b (i - j) then (i - j : ℤ) else (i - j : ℤ) - 1) = Int.log b r.toRat := by
  have hpos := toRat_pos h
  obtain ⟨hlow, hhigh⟩ := lt_toRat_lt (Nat.zero_lt_of_lt hb) hnum hden
  have hlow' := (Int.zpow_le_iff_le_log hb hpos).mp hlow.le
  have hhigh' := (Int.lt_zpow_iff_log_lt hb hpos).mp hhigh
  have hreaches := r.reaches_iff (Nat.zero_lt_of_lt hb) (i - j)
  rw [Int.zpow_le_iff_le_log hb hpos] at hreaches
  by_cases hle : (i : ℤ) - j ≤ Int.log b r.toRat
  · rw [if_pos (hreaches.mpr hle)]
    omega
  · rw [if_neg fun h => hle (hreaches.mp h)]
    omega

theorem log2_eq {r : Ratio} (h : r.num ≠ 0) : r.log2 = Int.log 2 r.toRat :=
  log_eq one_lt_two h ⟨Nat.log2_self_le h, Nat.lt_log2_self⟩
    ⟨Nat.log2_self_le r.den_pos.ne', Nat.lt_log2_self⟩

theorem digitCount_pos (n : ℕ) : 0 < digitCount n := List.length_pos_iff.mpr Nat.toDigits_ne_nil

theorem le_lt_of_digitCount {n : ℕ} (h : n ≠ 0) :
    10 ^ (digitCount n - 1) ≤ n ∧ n < 10 ^ (digitCount n - 1 + 1) := by
  have hcount := digitCount_pos n
  have hiff : ∀ k, 0 < k → (digitCount n ≤ k ↔ n < 10 ^ k) := fun k hk =>
    Nat.length_toDigits_le_iff (by decide) hk
  constructor
  · rcases Nat.eq_zero_or_pos (digitCount n - 1) with hone | hmore
    · rw [hone]
      omega
    · refine not_lt.mp fun hlt => ?_
      have hle := (hiff _ hmore).mpr hlt
      omega
  · exact (hiff _ (Nat.succ_pos _)).mp (by omega)

theorem log10_eq {r : Ratio} (h : r.num ≠ 0) : r.log10 = Int.log 10 r.toRat := by
  have hnum := digitCount_pos r.num
  have hden := digitCount_pos r.den
  have hdifference : ((digitCount r.num - 1 : ℕ) : ℤ) - (digitCount r.den - 1 : ℕ) =
      digitCount r.num - digitCount r.den := by omega
  have hlog := log_eq (by decide) h (le_lt_of_digitCount h) (le_lt_of_digitCount r.den_pos.ne')
  rw [hdifference] at hlog
  exact hlog

end Ratio

end Calculator
