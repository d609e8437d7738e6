import CallByNeed.Number.Decimal
import Mathlib

/- Texts of numbers. Every number has an interval of reals around it, and the text reads back to a
   point of it: seventeen digits are always fine enough to meet the interval. Intervals of different
   numbers share no point, so texts of numbers that are not the same differ. -/
namespace CallByNeed
namespace Number

/-! ### Points of an interval -/

theorem zpow_eq_div {b : ℚ} (base : b ≠ 0) (p : ℤ) : b ^ p = b ^ p.toNat / b ^ (-p).toNat := by
  rw [← zpow_natCast, ← zpow_natCast, ← zpow_sub₀ base]
  congr 1
  omega

namespace Interval
variable {i : Interval} {p : ℤ} {d : Nat} {v : ℚ}

/-- The value lies between bounds that are apart from it. -/
structure Proper (i : Interval) : Prop where
  unit : 0 < i.unit
  low : i.low < i.value
  high : i.value < i.high

/-- The point is between the bounds, or is one of them if the interval is closed. -/
structure Holds (i : Interval) (v : ℚ) : Prop where
  low : (i.low : ℚ) / i.unit ≤ v
  high : v ≤ (i.high : ℚ) / i.unit
  inside : i.closed = true ∨ (i.low : ℚ) / i.unit < v ∧ v < (i.high : ℚ) / i.unit

/-- A grid point against a bound, without fractions. -/
theorem point_eq_div (d : Nat) (p : ℤ) :
    (d : ℚ) * 10 ^ p = (d * 10 ^ p.toNat : Nat) / (10 ^ (-p).toNat : Nat) := by
  push_cast
  rw [zpow_eq_div (by norm_num), mul_div_assoc]

theorem le_point_iff (unit : 0 < i.unit) (bound : Nat) :
    (bound : ℚ) / i.unit ≤ d * 10 ^ p ↔
      bound * 10 ^ (-p).toNat ≤ d * (i.unit * 10 ^ p.toNat) := by
  have scale : 0 < 10 ^ (-p).toNat := Nat.pow_pos (by norm_num)
  rw [point_eq_div, div_le_div_iff₀ (by exact_mod_cast unit) (by exact_mod_cast scale)]
  norm_cast
  rw [Nat.mul_right_comm, Nat.mul_assoc d, Nat.mul_comm i.unit, ← Nat.mul_assoc d]

theorem point_le_iff (unit : 0 < i.unit) (bound : Nat) :
    (d : ℚ) * 10 ^ p ≤ bound / i.unit ↔
      d * (i.unit * 10 ^ p.toNat) ≤ bound * 10 ^ (-p).toNat := by
  have scale : 0 < 10 ^ (-p).toNat := Nat.pow_pos (by norm_num)
  rw [point_eq_div, div_le_div_iff₀ (by exact_mod_cast scale) (by exact_mod_cast unit)]
  norm_cast
  rw [Nat.mul_right_comm, Nat.mul_assoc d, Nat.mul_comm i.unit, ← Nat.mul_assoc d]

theorem holds_iff (unit : 0 < i.unit) : i.Holds (d * 10 ^ p) ↔
    i.low * 10 ^ (-p).toNat ≤ d * (i.unit * 10 ^ p.toNat) ∧
    d * (i.unit * 10 ^ p.toNat) ≤ i.high * 10 ^ (-p).toNat ∧
    (i.closed = true ∨ i.low * 10 ^ (-p).toNat < d * (i.unit * 10 ^ p.toNat) ∧
      d * (i.unit * 10 ^ p.toNat) < i.high * 10 ^ (-p).toNat) := by
  rw [← le_point_iff unit, ← point_le_iff unit, ← not_le (b := i.low * _), ← not_le (a := i.high * _),
    ← le_point_iff unit, ← point_le_iff unit, not_le, not_le]
  exact ⟨fun h => ⟨h.low, h.high, h.inside⟩, fun h => ⟨h.1, h.2.1, h.2.2⟩⟩

/-- What is found on a grid is in the interval. -/
theorem holds_of_gridPoint? (proper : i.Proper) (found : i.gridPoint? p = some d) :
    i.Holds (d * 10 ^ p) := by
  rw [holds_iff proper.unit]
  have fine : 0 < 10 ^ (-p).toNat := Nat.pow_pos (by norm_num)
  have apart : 0 < i.unit * 10 ^ p.toNat := Nat.mul_pos proper.unit (Nat.pow_pos (by norm_num))
  unfold gridPoint? at found
  simp only [Nat.pow_eq] at found
  generalize 10 ^ (-p).toNat = scale, i.unit * 10 ^ p.toNat = step at *
  have low : i.low * scale < i.value * scale := Nat.mul_lt_mul_of_pos_right proper.low fine
  have high : i.value * scale < i.high * scale := Nat.mul_lt_mul_of_pos_right proper.high fine
  have below := Nat.div_mul_le_self (i.value * scale) step
  have above := Nat.lt_div_mul_add (a := i.value * scale) apart
  generalize i.value * scale / step = floor at *
  have next : (floor + 1) * step = floor * step + step := Nat.succ_mul ..
  cases closed : i.closed <;> simp only [closed] at found ⊢ <;> grind

/-- A grid that is finer than half the interval meets it. -/
theorem isSome_gridPoint?
    (fine : i.unit * 10 ^ p.toNat < (i.high - i.value) * 10 ^ (-p).toNat) :
    (i.gridPoint? p).isSome := by
  have room := Nat.sub_mul i.high i.value (10 ^ (-p).toNat)
  unfold gridPoint?
  simp only [Nat.pow_eq]
  generalize 10 ^ (-p).toNat = scale, i.unit * 10 ^ p.toNat = step at *
  have below := Nat.div_mul_le_self (i.value * scale) step
  generalize i.value * scale / step = floor at *
  have fits : floor * step + step < i.high * scale := by omega
  have fits_above : if i.closed = true then floor * step + step ≤ i.high * scale
      else floor * step + step < i.high * scale := by split <;> omega
  rw [if_pos fits_above]
  repeat' split
  all_goals rfl

theorem holds_of_shortest (proper : i.Proper)
    (fine : (i.gridPoint? (i.coarsest - 20)).isSome) :
    i.Holds (i.shortest.1 * 10 ^ i.shortest.2) := by
  have met : ((List.range 21).findSome? fun (j : Nat) =>
      (i.gridPoint? (i.coarsest - j)).map fun d => (d, i.coarsest - (j : Int))).isSome := by
    rw [List.isSome_findSome?, List.any_eq_true]
    exact ⟨20, by decide, by simpa using fine⟩
  obtain ⟨⟨d, p⟩, found⟩ := Option.isSome_iff_exists.1 met
  have shortest : i.shortest = (d, p) := by
    unfold shortest
    dsimp only
    rw [found, Option.getD_some]
  obtain ⟨j, _, at_j⟩ := List.exists_of_findSome?_eq_some found
  obtain ⟨_, point, same⟩ := Option.map_eq_some_iff.1 at_j
  cases same
  rw [shortest]
  exact holds_of_gridPoint? proper point

end Interval

/-! ### Where intervals end -/

/-- The significand of the number at a place among the magnitudes. -/
def significandAt (n : Nat) : Nat := if n < 2 ^ 52 then n else n % 2 ^ 52 + 2 ^ 52

def exponentAt (n : Nat) : ℤ := if n < 2 ^ 52 then -1074 else (n / 2 ^ 52 : Nat) - 1075

/-- Halfway between a magnitude and the next one. -/
def edge (n : Nat) : ℚ := (significandAt n + 1 / 2) * 2 ^ exponentAt n

/-- In quarters of the last place: how far the interval reaches below its value. -/
def reach (n : Nat) : Nat := if significandAt n = 2 ^ 52 ∧ -1074 < exponentAt n then 1 else 2

/-- The interval of the next magnitude starts where that of the last one ends. -/
theorem edge_eq_low (n : Nat) :
    edge n = (significandAt (n + 1) - reach (n + 1) / 4 : ℚ) * 2 ^ exponentAt (n + 1) := by
  unfold edge reach significandAt exponentAt
  rcases Nat.lt_trichotomy (n + 1) (2 ^ 52) with small | first | large
  · have smaller : n < 2 ^ 52 := by omega
    have other : n + 1 ≠ 2 ^ 52 := by omega
    simp only [small, smaller, other, ↓reduceIte, false_and, Nat.cast_add, Nat.cast_one]
    norm_num
    ring
  · obtain rfl : n = 2 ^ 52 - 1 := by omega
    norm_num
  · have normal : ¬ n < 2 ^ 52 := by omega
    have normal' : ¬ n + 1 < 2 ^ 52 := by omega
    simp only [normal, normal', ↓reduceIte]
    by_cases last : n % 2 ^ 52 = 2 ^ 52 - 1
    · -- The next magnitude is a power of two: its last place is worth twice as much.
      have fraction : (n + 1) % 2 ^ 52 = 0 := by omega
      have binade : (n + 1) / 2 ^ 52 = n / 2 ^ 52 + 1 := by omega
      have higher : (-1074 : ℤ) < (n / 2 ^ 52 + 1 : Nat) - 1075 := by omega
      rw [fraction, binade, last, if_pos ⟨rfl, higher⟩]
      generalize n / 2 ^ 52 = k
      have doubled : ((k + 1 : Nat) - 1075 : ℤ) = (k - 1075) + 1 := by omega
      rw [doubled, zpow_add_one₀ (by norm_num)]
      norm_num
      ring
    · have fraction : (n + 1) % 2 ^ 52 = n % 2 ^ 52 + 1 := by omega
      have binade : (n + 1) / 2 ^ 52 = n / 2 ^ 52 := by omega
      have other : ¬ n % 2 ^ 52 + 1 + 2 ^ 52 = 2 ^ 52 := by omega
      simp only [fraction, binade, other, false_and, ↓reduceIte]
      push_cast
      ring

theorem edge_strictMono : StrictMono edge := by
  refine strictMono_nat_of_lt_succ fun n => ?_
  rw [edge_eq_low, edge]
  have below : (0 : ℚ) ≤ reach (n + 1) := Nat.cast_nonneg _
  exact mul_lt_mul_of_pos_right (by linarith) (zpow_pos (by norm_num) _)

/-! ### The intervals of numbers -/

section
variable {x y : Number}

theorem significand_eq (x : Number) : x.significand = significandAt x.magnitude := by
  simp only [significand, significandAt, Nat.one_shiftLeft]

theorem exponent_eq (x : Number) : x.exponent = exponentAt x.magnitude := by
  simp only [exponent, exponentAt, Nat.one_shiftLeft, Nat.shiftRight_eq_div_pow]

theorem significandAt_pos {n : Nat} (positive : 0 < n) : 0 < significandAt n := by
  unfold significandAt
  split <;> omega

theorem significandAt_lt (n : Nat) : significandAt n < 2 ^ 53 := by
  unfold significandAt
  split <;> omega

theorem exponentAt_bounds {n : Nat} (finite : n < infiniteMagnitude) :
    -1074 ≤ exponentAt n ∧ exponentAt n ≤ 971 := by
  have limit : infiniteMagnitude = 2047 * 2 ^ 52 := by decide
  unfold exponentAt
  split <;> omega

namespace Interval

/-- Quarters of the last place over the unit. -/
theorem quarters_eq (x : Number) (m : ℚ) :
    m * (1 <<< (x.exponent - 2).toNat : Nat) / (ofNumber x).unit = m / 4 * 2 ^ exponentAt x.magnitude := by
  simp only [ofNumber, Nat.one_shiftLeft, mul_div_assoc]
  push_cast
  rw [← zpow_eq_div (by norm_num), exponent_eq, zpow_sub₀ (by norm_num)]
  ring

theorem high_ofNumber (x : Number) :
    ((ofNumber x).high : ℚ) / (ofNumber x).unit = edge x.magnitude := by
  have high : (ofNumber x).high = (4 * x.significand + 2) * 1 <<< (x.exponent - 2).toNat := rfl
  rw [high, Nat.cast_mul, quarters_eq, edge, significand_eq]
  push_cast
  ring

theorem low_ofNumber (positive : 0 < x.magnitude) :
    ((ofNumber x).low : ℚ) / (ofNumber x).unit = edge (x.magnitude - 1) := by
  have low : (ofNumber x).low =
      (4 * x.significand - reach x.magnitude) * 1 <<< (x.exponent - 2).toNat := by
    simp only [ofNumber, reach, significand_eq, exponent_eq, Nat.one_shiftLeft]
  have inside : reach x.magnitude ≤ 4 * x.significand := by
    have some := significandAt_pos positive
    rw [significand_eq, reach]
    split <;> omega
  obtain ⟨n, place⟩ := Nat.exists_eq_succ_of_ne_zero (Nat.pos_iff_ne_zero.1 positive)
  rw [low, Nat.cast_mul, quarters_eq, Nat.cast_sub inside, significand_eq, place, Nat.succ_sub_one,
    edge_eq_low]
  push_cast
  ring

theorem proper_ofNumber (positive : 0 < x.magnitude) : (ofNumber x).Proper := by
  have some := significandAt_pos positive
  have scale : 0 < 1 <<< (x.exponent - 2).toNat := by
    rw [Nat.one_shiftLeft]
    exact Nat.two_pow_pos _
  constructor
  case unit =>
    simp only [ofNumber, Nat.one_shiftLeft]
    exact Nat.two_pow_pos _
  case low =>
    refine Nat.mul_lt_mul_of_pos_right ?_ scale
    rw [significand_eq]
    split <;> omega
  case high => exact Nat.mul_lt_mul_of_pos_right (by omega) scale

/-- A power of ten that is far enough below a power of two, on a scale of decimal digits. -/
theorem ten_zpow_lt {p q : ℤ} (low : -1074 ≤ q) (high : q ≤ 971)
    (digits : 100000 * (p + 19) ≤ 30103 * (q + 53)) : (10 : ℚ) ^ p < 2 ^ (q - 1) := by
  rcases le_or_gt 0 p with up | down
  · have tens : ((10 : ℚ) ^ p) ^ 3 ≤ (2 : ℚ) ^ (10 * p) := by
      rw [← zpow_natCast, ← zpow_mul, mul_comm p, zpow_mul, zpow_mul]
      exact zpow_le_zpow_left₀ up (by norm_num) (by norm_num)
    have twos : (2 : ℚ) ^ (10 * p) < ((2 : ℚ) ^ (q - 1)) ^ 3 := by
      rw [← zpow_natCast, ← zpow_mul]
      exact zpow_lt_zpow_right₀ (by norm_num) (by push_cast; omega)
    exact lt_of_pow_lt_pow_left₀ 3 (zpow_pos (by norm_num) _).le (tens.trans_lt twos)
  · have tens : ((10 : ℚ) ^ p) ^ 28 ≤ (2 : ℚ) ^ (93 * p) := by
      rw [← zpow_natCast, ← zpow_mul, mul_comm p, zpow_mul, zpow_mul, ← neg_neg p,
        zpow_neg ((10 : ℚ) ^ _), zpow_neg ((2 : ℚ) ^ _)]
      refine inv_anti₀ (zpow_pos (by norm_num) _) ?_
      exact zpow_le_zpow_left₀ (by omega) (by norm_num) (by norm_num)
    have twos : (2 : ℚ) ^ (93 * p) < ((2 : ℚ) ^ (q - 1)) ^ 28 := by
      rw [← zpow_natCast, ← zpow_mul]
      exact zpow_lt_zpow_right₀ (by norm_num) (by push_cast; omega)
    exact lt_of_pow_lt_pow_left₀ 28 (zpow_pos (by norm_num) _).le (tens.trans_lt twos)

theorem coarsest_le (x : Number) :
    100000 * ((ofNumber x).coarsest - 1) ≤ 30103 * (exponentAt x.magnitude + 53) := by
  have most : Nat.log2 (ofNumber x).value < 55 + (x.exponent - 2).toNat := by
    by_cases zero : (ofNumber x).value = 0
    · rw [zero]
      exact Nat.lt_of_lt_of_le (by decide) (Nat.le_add_right 55 _)
    rw [Nat.log2_lt zero, Nat.pow_add]
    simp only [ofNumber, Nat.one_shiftLeft]
    have bound := significandAt_lt x.magnitude
    rw [significand_eq]
    exact Nat.mul_lt_mul_of_pos_right (by omega) (Nat.two_pow_pos _)
  have unit : Nat.log2 (ofNumber x).unit = (-(x.exponent - 2)).toNat := by
    simp only [ofNumber, Nat.one_shiftLeft, Nat.log2_two_pow]
  rw [← exponent_eq]
  unfold coarsest
  rw [unit, Int.fdiv_eq_ediv_of_nonneg _ (by norm_num)]
  omega

/-- The last of the grids that are tried is fine enough. -/
theorem isSome_last_gridPoint? (finite : x.magnitude < infiniteMagnitude) :
    ((ofNumber x).gridPoint? ((ofNumber x).coarsest - 20)).isSome := by
  obtain ⟨low, high⟩ := exponentAt_bounds finite
  have start := coarsest_le x
  have less := ten_zpow_lt (p := (ofNumber x).coarsest - 20) low high (by omega)
  refine isSome_gridPoint? ?_
  generalize (ofNumber x).coarsest - 20 = p at less ⊢
  have room : (ofNumber x).high - (ofNumber x).value = 2 * 2 ^ (x.exponent - 2).toNat := by
    simp only [ofNumber, Nat.one_shiftLeft, ← Nat.sub_mul]
    congr 1
    omega
  have unit : (ofNumber x).unit = 2 ^ (-(x.exponent - 2)).toNat := by
    simp only [ofNumber, Nat.one_shiftLeft]
  have half : (2 : ℚ) ^ (exponentAt x.magnitude - 1) =
      (2 * 2 ^ (x.exponent - 2).toNat : Nat) / (2 ^ (-(x.exponent - 2)).toNat : Nat) := by
    push_cast
    rw [mul_div_assoc, ← zpow_eq_div (by norm_num), ← exponent_eq, ← zpow_one_add₀ (by norm_num)]
    congr 1
    ring
  rw [half, zpow_eq_div (by norm_num), div_lt_div_iff₀ (by positivity) (by positivity)] at less
  rw [room, unit, Nat.mul_comm (2 ^ _)]
  exact_mod_cast less

theorem holds_shortest (positive : 0 < x.magnitude) (finite : x.magnitude < infiniteMagnitude) :
    (ofNumber x).Holds ((ofNumber x).shortest.1 * 10 ^ (ofNumber x).shortest.2) :=
  holds_of_shortest (proper_ofNumber positive) (isSome_last_gridPoint? finite)

/-- No point belongs to two magnitudes: where one interval ends at which the next one starts, only one
    of the two significands is even. -/
theorem magnitude_le_of_holds (positive : 0 < x.magnitude) (positive' : 0 < y.magnitude) {v : ℚ}
    (left : (ofNumber x).Holds v) (right : (ofNumber y).Holds v) : y.magnitude ≤ x.magnitude := by
  by_contra less
  have above := left.high
  have below := right.low
  have left_inside := left.inside
  have right_inside := right.inside
  rw [high_ofNumber, low_ofNumber positive] at left_inside
  rw [high_ofNumber, low_ofNumber positive'] at right_inside
  rw [high_ofNumber] at above
  rw [low_ofNumber positive'] at below
  have order : x.magnitude ≤ y.magnitude - 1 := by omega
  have shared : edge x.magnitude = edge (y.magnitude - 1) :=
    le_antisymm (edge_strictMono.monotone order) (below.trans above)
  have next := edge_strictMono.injective shared
  have even : (ofNumber x).closed = true := left_inside.resolve_right fun inside => by linarith
  have even' : (ofNumber y).closed = true := right_inside.resolve_right fun inside => by linarith
  simp only [ofNumber, significand_eq, significandAt, decide_eq_true_eq] at even even'
  split at even <;> split at even' <;> omega

end Interval
end

/-! ### Reading a text -/

/-- What a decimal text says. -/
def reading (cs : List Char) : ℚ :=
  Nat.ofDigitChars 10 (cs.filter (· ≠ '.')) 0 / 10 ^ ((cs.dropWhile (· ≠ '.')).length - 1)

theorem reading_whole {cs : List Char} (digits : ∀ c ∈ cs, c ≠ '.') :
    reading cs = Nat.ofDigitChars 10 cs 0 := by
  have all : cs.filter (· ≠ '.') = cs := List.filter_eq_self.2 (by simpa using digits)
  have none_left : cs.dropWhile (· ≠ '.') = [] := List.dropWhile_eq_nil_iff.2 (by simpa using digits)
  simp only [reading, all, none_left, List.length_nil, Nat.zero_sub, pow_zero, div_one]

theorem reading_point {whole fraction : List Char} (digits : ∀ c ∈ whole ++ fraction, c ≠ '.') :
    reading (whole ++ '.' :: fraction) =
      Nat.ofDigitChars 10 (whole ++ fraction) 0 / 10 ^ fraction.length := by
  have first : ∀ c ∈ whole, c ≠ '.' := fun c mem => digits c (List.mem_append_left _ mem)
  have last : ∀ c ∈ fraction, c ≠ '.' := fun c mem => digits c (List.mem_append_right _ mem)
  have kept : (whole ++ '.' :: fraction).filter (· ≠ '.') = whole ++ fraction := by
    rw [List.filter_append, List.filter_cons_of_neg (by simp),
      List.filter_eq_self.2 (by simpa using first), List.filter_eq_self.2 (by simpa using last)]
  have point : (whole ++ '.' :: fraction).dropWhile (· ≠ '.') = '.' :: fraction := by
    rw [List.dropWhile_append_of_pos (by simpa using first), List.dropWhile_cons_of_neg (by simp)]
  simp only [reading, kept, point, List.length_cons, Nat.add_sub_cancel]

/-- Zeros at the end of a fraction say nothing. -/
theorem exists_zeros (cs : List Char) :
    ∃ n, cs = (cs.reverse.dropWhile (· == '0')).reverse ++ List.replicate n '0' := by
  refine ⟨(cs.reverse.takeWhile (· == '0')).length, ?_⟩
  have zeros : cs.reverse.takeWhile (· == '0') =
      List.replicate (cs.reverse.takeWhile (· == '0')).length '0' := by
    refine List.eq_replicate_iff.2 ⟨rfl, fun c mem => ?_⟩
    simpa using List.mem_takeWhile_imp mem
  rw [← List.reverse_replicate, ← zeros, ← List.reverse_append, List.takeWhile_append_dropWhile,
    List.reverse_reverse]

/-- The parts of a positional text: digits, which the number of places splits. -/
theorem positional_split (d : Nat) {e : ℤ} (negative : ¬ 0 ≤ e) :
    ∃ (whole fraction : List Char) (zeros : Nat), whole ≠ [] ∧
      (∀ c ∈ whole ++ fraction, c.isDigit) ∧
      fraction.length + zeros = (-e).toNat ∧
      Nat.ofDigitChars 10 (whole ++ fraction) 0 * 10 ^ zeros = d ∧
      positional d e = whole ++ if fraction.isEmpty then [] else '.' :: fraction := by
  let places := (-e).toNat
  let padded := List.replicate (places + 1 - (Nat.toDigits 10 d).length) '0' ++ Nat.toDigits 10 d
  let whole := padded.take (padded.length - places)
  let fraction := ((padded.drop (padded.length - places)).reverse.dropWhile (· == '0')).reverse
  obtain ⟨zeros, split⟩ := exists_zeros (padded.drop (padded.length - places))
  have long : places < padded.length := by
    simp only [padded, List.length_append, List.length_replicate]
    omega
  have joined : padded = whole ++ fraction ++ List.replicate zeros '0' := by
    rw [List.append_assoc, ← split, List.take_append_drop]
  have digits : ∀ c ∈ padded, c.isDigit := by
    intro c mem
    rcases List.mem_append.1 mem with zero | digit
    · rw [List.eq_of_mem_replicate zero]
      decide
    · exact Nat.isDigit_of_mem_toDigits (by norm_num) (by norm_num) digit
  refine ⟨whole, fraction, zeros, ?_, ?_, ?_, ?_, ?_⟩
  · refine List.ne_nil_of_length_pos ?_
    simp only [whole, List.length_take]
    omega
  · exact fun c mem => digits c (joined ▸ List.mem_append_left _ mem)
  · have count : padded.length - (padded.length - places) = fraction.length + zeros := by
      rw [← List.length_drop, split, List.length_append, List.length_replicate]
    omega
  · have value : Nat.ofDigitChars 10 padded 0 = d := by
      rw [Nat.ofDigitChars_append, Nat.ofDigitChars_replicate_zero, Nat.mul_zero,
        Nat.ofDigitChars_toDigits (by norm_num) (by norm_num)]
    rw [joined, Nat.ofDigitChars_append, Nat.ofDigitChars_replicate_zero] at value
    rw [Nat.mul_comm, value]
  · simp only [positional, negative, ↓reduceIte]
    rfl

theorem ne_point_of_isDigit {c : Char} (digit : c.isDigit) : c ≠ '.' := by
  rintro rfl
  exact absurd digit (by decide)

/-- A positional text says what it is the text of. -/
theorem reading_positional (d : Nat) (e : ℤ) : reading (positional d e) = d * 10 ^ e := by
  by_cases whole : 0 ≤ e
  · have digits : ∀ c ∈ Nat.toDigits 10 d ++ List.replicate e.toNat '0', c ≠ '.' := by
      intro c mem
      rcases List.mem_append.1 mem with digit | zero
      · exact ne_point_of_isDigit (Nat.isDigit_of_mem_toDigits (by norm_num) (by norm_num) digit)
      · rw [List.eq_of_mem_replicate zero]
        decide
    simp only [positional, whole, ↓reduceIte]
    rw [reading_whole digits, Nat.ofDigitChars_append, Nat.ofDigitChars_replicate_zero,
      Nat.ofDigitChars_toDigits (by norm_num) (by norm_num), zpow_eq_div (by norm_num),
      Int.toNat_of_nonpos (by omega : -e ≤ 0)]
    push_cast
    ring
  · obtain ⟨whole, fraction, zeros, _, digits, places, value, text⟩ := positional_split d whole
    have plain : ∀ c ∈ whole ++ fraction, c ≠ '.' := fun c mem => ne_point_of_isDigit (digits c mem)
    have read : reading (positional d e) =
        Nat.ofDigitChars 10 (whole ++ fraction) 0 / 10 ^ fraction.length := by
      rw [text]
      cases fraction with
      | nil =>
        rw [List.append_nil] at plain
        simp only [List.isEmpty_nil, ↓reduceIte, List.append_nil, List.length_nil, pow_zero, div_one]
        exact reading_whole plain
      | cons c cs => exact reading_point plain
    rw [read, zpow_eq_div (by norm_num), Int.toNat_of_nonpos (by omega : e ≤ 0), ← places, ← value]
    push_cast
    rw [pow_zero, pow_add, one_div, ← div_eq_mul_inv]
    exact (mul_div_mul_right _ _ (by positivity)).symm

/-- A positional text is made of digits and a point, and a digit comes first. -/
theorem chars_of_positional (d : Nat) (e : ℤ) :
    ∃ c cs, positional d e = c :: cs ∧ c.isDigit ∧ ∀ c ∈ cs, c.isDigit ∨ c = '.' := by
  by_cases whole : 0 ≤ e
  · obtain ⟨c, cs, digits⟩ := List.exists_cons_of_ne_nil (Nat.toDigits_ne_nil (n := d) (b := 10))
    have all : ∀ c ∈ Nat.toDigits 10 d, c.isDigit :=
      fun c => Nat.isDigit_of_mem_toDigits (by norm_num) (by norm_num)
    rw [digits, List.forall_mem_cons] at all
    refine ⟨c, cs ++ List.replicate e.toNat '0', ?_, all.1, fun c mem => .inl ?_⟩
    · simp only [positional, whole, ↓reduceIte, digits, List.cons_append]
    · rcases List.mem_append.1 mem with digit | zero
      · exact all.2 c digit
      · rw [List.eq_of_mem_replicate zero]
        decide
  · obtain ⟨whole, fraction, _, some, digits, _, _, text⟩ := positional_split d whole
    obtain ⟨c, cs, rfl⟩ := List.exists_cons_of_ne_nil some
    rw [List.cons_append, List.forall_mem_cons] at digits
    refine ⟨c, _, by rw [text, List.cons_append], digits.1, fun c mem => ?_⟩
    rcases List.mem_append.1 mem with digit | after
    · exact .inl (digits.2 c (List.mem_append_left _ digit))
    · split at after
      · cases after
      · rcases List.mem_cons.1 after with point | digit
        · exact .inr point
        · exact .inl (digits.2 c (List.mem_append_right _ digit))

/-! ### Texts of numbers -/

/-- The text after the sign. -/
def digits (x : Number) : List Char :=
  if !x.isFinite then ['i', 'n', 'f']
  else if x.isZero then ['0']
  else positional (Interval.ofNumber x).shortest.1 (Interval.ofNumber x).shortest.2

theorem toList_text (x : Number) : x.text.toList =
    if x.isNaN then ['N', 'a', 'N'] else (if x.isNegative then ['-'] else []) ++ x.digits := by
  unfold text digits
  split
  · rfl
  · rw [String.toList_ofList]

inductive NumeralChar : Char → Prop
  | digit {c : Char} (digit : c.isDigit) : NumeralChar c
  | other {c : Char} (mem : c ∈ ['-', '.', 'N', 'a', 'i', 'n', 'f']) : NumeralChar c

section
variable {x y : Number}

/-- What the digits begin with tells an infinity from the others; no sign comes there. -/
theorem chars_of_digits (x : Number) :
    ∃ c cs, x.digits = c :: cs ∧ (if x.isFinite then c.isDigit = true else c = 'i') ∧
      ∀ c ∈ cs, NumeralChar c := by
  unfold digits
  cases finite : x.isFinite with
  | false =>
    refine ⟨'i', ['n', 'f'], rfl, rfl, fun c mem => .other ?_⟩
    rcases List.mem_pair.1 mem with rfl | rfl <;> decide
  | true =>
    split
    · next infinite => cases infinite
    · split
      · exact ⟨'0', [], rfl, by decide, by simp⟩
      · obtain ⟨c, cs, text, first, rest⟩ := chars_of_positional _ _
        refine ⟨c, cs, text, first, fun c mem => ?_⟩
        rcases rest c mem with digit | rfl
        · exact .digit digit
        · exact .other (by decide)

theorem chars_of_text (x : Number) : x.text.toList ≠ [] ∧ ∀ c ∈ x.text.toList, NumeralChar c := by
  rw [toList_text]
  split
  · exact ⟨by simp, fun c mem => .other (by fin_cases mem <;> decide)⟩
  · obtain ⟨c, cs, text, first, rest⟩ := chars_of_digits x
    have numeral : NumeralChar c := by
      split at first
      · exact .digit first
      · rw [first]
        exact .other (by decide)
    rw [text]
    refine ⟨by simp, fun d mem => ?_⟩
    rcases List.mem_append.1 mem with sign | mem
    · split at sign
      · exact .other (by simpa using .inl (List.mem_singleton.1 sign))
      · cases sign
    · rcases List.mem_cons.1 mem with rfl | later
      · exact numeral
      · exact rest d later

theorem reading_digits_of_isZero (finite : x.isFinite) (zero : x.magnitude = 0) :
    reading x.digits = 0 := by
  have text : x.digits = ['0'] := by simp [digits, finite, isZero, zero]
  rw [text, reading_whole (by simp), Nat.ofDigitChars_cons, Nat.ofDigitChars_nil]
  norm_num

theorem holds_reading_digits (finite : x.isFinite) (positive : 0 < x.magnitude) :
    (Interval.ofNumber x).Holds (reading x.digits) := by
  have text : x.digits =
      positional (Interval.ofNumber x).shortest.1 (Interval.ofNumber x).shortest.2 := by
    simp [digits, finite, isZero, Nat.pos_iff_ne_zero.1 positive]
  rw [text, reading_positional]
  exact Interval.holds_shortest positive (by simpa [isFinite] using finite)

theorem reading_digits_pos (finite : x.isFinite) (positive : 0 < x.magnitude) :
    0 < reading x.digits := by
  have low := (holds_reading_digits finite positive).low
  rw [Interval.low_ofNumber positive] at low
  have some : 0 < edge (x.magnitude - 1) := mul_pos (by positivity) (zpow_pos (by norm_num) _)
  exact some.trans_le low

theorem magnitude_le_of_digits (finite : x.isFinite) (finite' : y.isFinite)
    (same : x.digits = y.digits) : y.magnitude ≤ x.magnitude := by
  rcases Nat.eq_zero_or_pos y.magnitude with zero' | positive'
  · exact zero' ▸ Nat.zero_le _
  rcases Nat.eq_zero_or_pos x.magnitude with zero | positive
  · have some := reading_digits_pos finite' positive'
    rw [← same, reading_digits_of_isZero finite zero] at some
    exact absurd some (lt_irrefl _)
  · have left := holds_reading_digits finite positive
    rw [same] at left
    exact Interval.magnitude_le_of_holds positive positive' left
      (holds_reading_digits finite' positive')

theorem magnitude_eq_of_digits (number : x.isNaN = false) (number' : y.isNaN = false)
    (same : x.digits = y.digits) : x.magnitude = y.magnitude := by
  obtain ⟨c, cs, text, first, _⟩ := chars_of_digits x
  obtain ⟨c', cs', text', first', _⟩ := chars_of_digits y
  have heads := same
  rw [text, text', List.cons.injEq] at heads
  rw [heads.1] at first
  cases finite : x.isFinite <;> cases finite' : y.isFinite <;>
    simp only [finite, finite', Bool.false_eq_true, ↓reduceIte] at first first'
  · -- Neither finite nor NaN: both are infinite.
    simp only [isNaN, isFinite, decide_eq_false_iff_not] at number number' finite finite'
    omega
  · rw [first] at first'
    exact absurd first' (by decide)
  · rw [first'] at first
    exact absurd first (by decide)
  · exact Nat.le_antisymm (magnitude_le_of_digits finite' finite same.symm)
      (magnitude_le_of_digits finite finite' same)

/-- Numbers with one text are the same number. -/
theorem same_of_text (text : x.text = y.text) : x.same y = true := by
  have chars := congrArg String.toList text
  rw [toList_text, toList_text] at chars
  obtain ⟨c, cs, start, first, _⟩ := chars_of_digits x
  obtain ⟨c', cs', start', first', _⟩ := chars_of_digits y
  have plain : c ≠ 'N' ∧ c ≠ '-' := by
    constructor <;> rintro rfl <;> split at first <;> exact absurd first (by decide)
  have plain' : c' ≠ 'N' ∧ c' ≠ '-' := by
    constructor <;> rintro rfl <;> split at first' <;> exact absurd first' (by decide)
  cases number : x.isNaN <;> cases number' : y.isNaN <;>
    simp only [number, number', Bool.false_eq_true, ↓reduceIte] at chars
  · have signed : x.isNegative = y.isNegative ∧ x.digits = y.digits := by
      cases negative : x.isNegative <;> cases negative' : y.isNegative <;>
        simp only [negative, negative', Bool.false_eq_true, ↓reduceIte, List.nil_append,
          List.cons_append, List.cons.injEq, true_and] at chars ⊢
      · exact chars
      · rw [start] at chars
        exact absurd (List.cons.inj chars).1 plain.2
      · rw [start'] at chars
        exact absurd (List.cons.inj chars).1.symm plain'.2
      · exact chars
    have magnitude := magnitude_eq_of_digits number number' signed.2
    simp only [same, rank, number, number', signed.1, magnitude, beq_self_eq_true]
  · rw [start] at chars
    cases negative : x.isNegative <;> simp [negative] at chars
    exact absurd chars.1 plain.1
  · rw [start'] at chars
    cases negative : y.isNegative <;> simp [negative] at chars
    exact absurd chars.1.symm plain'.1
  · simp only [same, rank, number, number', ↓reduceIte, beq_self_eq_true]

end

end Number
end CallByNeed
