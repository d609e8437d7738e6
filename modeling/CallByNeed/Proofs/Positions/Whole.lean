import CallByNeed.Number
import Mathlib.Data.Rat.Lemmas
import Mathlib.Algebra.Order.Field.Rat
import Mathlib.Tactic.Ring
import Mathlib.Tactic.Positivity

/- The values of numbers. A finite number is an integer times a power of two, and it is taken for an
   integer exactly if that product is one. -/
namespace CallByNeed
namespace Number

def sign (x : Number) : ℤ := if x.isNegative then -1 else 1

/-- The value of a finite number. -/
def value (x : Number) : ℚ := x.sign * x.significand * 2 ^ x.exponent

/-- The number is finite and has this integer as its value. -/
def IsWhole (x : Number) (i : ℤ) : Prop := x.isFinite = true ∧ x.value = i

section
variable {x : Number} {i j : ℤ}

theorem IsWhole.unique (whole : x.IsWhole i) (whole' : x.IsWhole j) : i = j := by
  have same := whole.2.symm.trans whole'.2
  exact_mod_cast same

theorem not_isWhole_of_isNaN (nan : x.isNaN = true) (i : ℤ) : ¬ x.IsWhole i := by
  rintro ⟨finite, _⟩
  simp only [isNaN, isFinite, decide_eq_true_eq] at nan finite
  omega

theorem not_isWhole_infinity (i : ℤ) : ¬ infinity.IsWhole i ∧ ¬ negativeInfinity.IsWhole i :=
  ⟨fun whole => absurd whole.1 (by decide), fun whole => absurd whole.1 (by decide)⟩

theorem sign_mul (x : Number) (n : ℕ) : x.sign * n = if x.isNegative then -(n : ℤ) else n := by
  rw [sign]
  split <;> ring

theorem value_of_exponent_nonneg (large : 0 ≤ x.exponent) :
    x.value = (x.sign * (x.significand <<< x.exponent.toNat : ℕ) : ℤ) := by
  have power : (2 : ℚ) ^ x.exponent = 2 ^ x.exponent.toNat := by
    rw [← zpow_natCast, Int.toNat_of_nonneg large]
  rw [value, power, Nat.shiftLeft_eq]
  push_cast
  ring

theorem value_of_exponent_neg (small : x.exponent < 0) :
    x.value = (x.sign * x.significand : ℤ) / (1 <<< (-x.exponent).toNat : ℕ) := by
  have power : (2 : ℚ) ^ x.exponent = (2 ^ (-x.exponent).toNat)⁻¹ := by
    rw [← zpow_natCast, Int.toNat_of_nonneg (by omega), zpow_neg, inv_inv]
  rw [value, power, Nat.one_shiftLeft]
  push_cast
  ring

/-- A fraction is an integer exactly if its denominator divides its numerator. -/
theorem quotient_eq_iff {unit : ℕ} (positive : 0 < unit) :
    ((x.sign * x.significand : ℤ) / unit : ℚ) = i ↔
      unit ∣ x.significand ∧ x.sign * (x.significand / unit : ℕ) = i := by
  have nonzero : (unit : ℚ) ≠ 0 := Nat.cast_ne_zero.2 positive.ne'
  rw [div_eq_iff nonzero]
  constructor
  · intro same
    have whole : x.sign * x.significand = i * unit := by exact_mod_cast same
    have divides : unit ∣ x.significand := by
      have divides : (unit : ℤ) ∣ x.sign * x.significand := ⟨i, by rw [whole, mul_comm]⟩
      rw [sign_mul] at divides
      split at divides
      · exact Int.natCast_dvd_natCast.1 (Int.dvd_neg.1 divides)
      · exact Int.natCast_dvd_natCast.1 divides
    refine ⟨divides, ?_⟩
    obtain ⟨n, product⟩ := divides
    rw [product, Nat.mul_div_cancel_left n positive]
    rw [product, Nat.cast_mul, mul_left_comm, mul_comm] at whole
    exact Int.eq_of_mul_eq_mul_right (by exact_mod_cast positive.ne') whole
  · rintro ⟨⟨n, product⟩, rfl⟩
    rw [product, Nat.mul_div_cancel_left n positive]
    push_cast
    ring

/-- A number is taken for an integer if that is its value. -/
theorem toInt?_eq_some_iff : x.toInt? = some i ↔ x.IsWhole i := by
  unfold toInt? IsWhole
  split
  case isFalse infinite => simp [infinite]
  case isTrue finite =>
    by_cases large : 0 ≤ x.exponent
    · rw [value_of_exponent_nonneg large, Int.cast_inj, sign_mul]
      simp [large, finite]
    · rw [value_of_exponent_neg (by omega), quotient_eq_iff (by simp [Nat.shiftLeft_eq]), sign_mul,
        Nat.dvd_iff_mod_eq_zero]
      by_cases divides : x.significand % 1 <<< (-x.exponent).toNat = 0 <;>
        simp [large, finite, divides]

end
end Number
end CallByNeed
