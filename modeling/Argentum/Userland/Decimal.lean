/-
# Userland.Decimal — comparing decimals

`NSDecimalCompare` looks at the digits place by place, from the highest down.
`compare_value`: it answers with the order of the numbers.
-/
import Mathlib

namespace Argentum.Userland

/-- The digits in use, lowest first. -/
structure Decimal where
  exponent : Int8
  digits : List Nat
  small : ∀ d ∈ digits, d < 10
  isNegative : Bool
  isNaN : Bool

namespace Decimal

variable (x left right : Decimal)

def digitAt (place : Int) : Nat :=
  let index := place - x.exponent.toInt
  if index < 0 ∨ x.digits.length ≤ index then 0 else x.digits.getD index.toNat 0

def isZero : Bool := !x.isNaN && x.digits.all (· == 0)

/-- The loop over the `n` places from -129 on. -/
def compareLoop : Nat → Ordering
  | 0 => .eq
  | n + 1 =>
    let a := left.digitAt (n - 129)
    let b := right.digitAt (n - 129)
    if a ≠ b then if decide (a < b) != left.isNegative then .lt else .gt else compareLoop n

/-- `exponent + length`. -/
def high : Int := x.exponent.toInt + x.digits.length

/-- `NSDecimalCompare`; `.lt` is `NSOrderedAscending`. -/
def compare : Ordering :=
  if left.isNaN || right.isNaN then .eq
  else if left.isZero && right.isZero then .eq
  else if left.isNegative != right.isNegative then if left.isNegative then .lt else .gt
  else compareLoop left right (max left.high right.high + 129).toNat

def value : ℚ :=
  (if x.isNegative then -1 else 1) * (Nat.ofDigits 10 x.digits : ℕ) * 10 ^ x.exponent.toInt

/-! ## Places -/

/-- The magnitude in units of the lowest place. -/
def units : Nat := Nat.ofDigits 10 x.digits * 10 ^ (x.exponent.toInt + 129).toNat

def signed : Int := if x.isNegative then -x.units else x.units

variable {x left right}

theorem value_eq : x.value = x.signed / 10 ^ 129 := by
  have low := Int8.le_toInt x.exponent
  have magnitude : (x.units : ℚ) =
      (Nat.ofDigits 10 x.digits : ℕ) * (10 ^ x.exponent.toInt * 10 ^ (129 : ℤ)) := by
    rw [units, Nat.cast_mul, Nat.cast_pow, Nat.cast_ofNat, ← zpow_natCast,
      Int.toNat_of_nonneg (by omega), zpow_add₀ (by norm_num)]
  unfold value signed
  split <;> simp only [Int.cast_neg, Int.cast_natCast, magnitude] <;> field_simp

theorem digitAt_eq (n : Nat) : x.digitAt (n - 129) = x.units / 10 ^ n % 10 := by
  have low := Int8.le_toInt x.exponent
  obtain ⟨k, start⟩ := Int.eq_ofNat_of_zero_le (show 0 ≤ x.exponent.toInt + 129 by omega)
  rw [units, start, Int.toNat_natCast, digitAt]
  by_cases below : n < k
  · have power : 10 ^ n * 10 ∣ 10 ^ k := pow_dvd_pow 10 below
    rw [if_pos (by omega), Nat.mod_eq_zero_of_dvd (Nat.dvd_div_of_mul_dvd (power.mul_left _))]
  · obtain ⟨i, rfl⟩ := Nat.exists_eq_add_of_le (Nat.le_of_not_lt below)
    have index : ((k + i : Nat) : Int) - 129 - x.exponent.toInt = i := by omega
    rw [index, Nat.pow_add, Nat.mul_comm, Nat.mul_div_mul_left _ _ (by positivity),
      Nat.ofDigits_div_pow_eq_ofDigits_drop i (by norm_num) _ x.small]
    by_cases inside : i < x.digits.length
    · have small := x.small _ (List.getElem_mem inside)
      rw [List.drop_eq_getElem_cons inside, Nat.ofDigits_cons, if_neg (by omega)]
      simp [inside]
      omega
    · rw [if_pos (by omega), List.drop_of_length_le (by omega)]
      rfl

theorem units_lt {n : Nat} (reach : x.high + 129 ≤ n) : x.units < 10 ^ n := by
  have low := Int8.le_toInt x.exponent
  have digits := Nat.ofDigits_lt_base_pow_length (by norm_num) x.small
  unfold high at reach
  calc x.units < 10 ^ x.digits.length * 10 ^ (x.exponent.toInt + 129).toNat :=
        Nat.mul_lt_mul_of_pos_right digits (by positivity)
    _ = 10 ^ (x.digits.length + (x.exponent.toInt + 129).toNat) := (Nat.pow_add ..).symm
    _ ≤ 10 ^ n := Nat.pow_le_pow_right (by norm_num) (by omega)

theorem units_zero (zero : x.isZero = true) : x.units = 0 := by
  simp only [isZero, Bool.and_eq_true, List.all_eq_true, beq_iff_eq] at zero
  rw [units, List.eq_replicate_of_mem zero.2]
  simp

/-- The numbers agree above the places that are left. -/
theorem compareLoop_eq {n : Nat} (same : left.isNegative = right.isNegative)
    (above : left.units / 10 ^ n = right.units / 10 ^ n) :
    compareLoop left right n = cmp left.signed right.signed := by
  induction n with
  | zero => simp_all [compareLoop, signed]
  | succ n ih =>
    rw [Nat.pow_succ, ← Nat.div_div_eq_div_mul, ← Nat.div_div_eq_div_mul] at above
    simp only [compareLoop, digitAt_eq]
    rcases lt_trichotomy (left.units / 10 ^ n) (right.units / 10 ^ n) with less | equal | more
    · have less' := Nat.lt_of_div_lt_div less
      rw [if_pos (by omega)]
      grind [signed, cmp_eq_lt_iff, cmp_eq_gt_iff]
    · rw [if_neg (by omega), ih equal]
    · have more' := Nat.lt_of_div_lt_div more
      rw [if_pos (by omega)]
      grind [signed, cmp_eq_lt_iff, cmp_eq_gt_iff]

/-- **The order of the numbers.** -/
theorem compare_value (left right : Decimal) (numbers : left.isNaN = false ∧ right.isNaN = false)
    (zeros : ∀ x ∈ [left, right], x.value = 0 → x.isNegative = false) :
    compare left right = cmp left.value right.value := by
  have mono : StrictMono fun z : Int => (z : ℚ) / 10 ^ 129 :=
    fun a b less => div_lt_div_of_pos_right (Int.cast_lt.mpr less) (by positivity)
  have top : ∀ x : Decimal, x.high ≤ max left.high right.high →
      x.units / 10 ^ (max left.high right.high + 129).toNat = 0 :=
    fun x le => Nat.div_eq_of_lt (units_lt (by omega))
  have nonzero : ∀ x ∈ [left, right], x.isNegative = true → x.units ≠ 0 := by
    intro x member negative zero
    have := zeros x member (by simp [value_eq, signed, zero])
    simp [this] at negative
  rw [value_eq, value_eq, mono.cmp_map_eq left.signed, compare, numbers.1, numbers.2]
  split_ifs with nan zero differ negative
  · cases nan
  · rw [Bool.and_eq_true] at zero
    simp [signed, units_zero zero.1, units_zero zero.2]
  · have other : ¬ right.isNegative = true := by simpa [negative] using differ
    have := nonzero left (by simp) negative
    rw [eq_comm, cmp_eq_lt_iff, signed, signed, if_pos negative, if_neg other]
    omega
  · have other : right.isNegative = true := by simpa [negative] using differ
    have := nonzero right (by simp) other
    rw [eq_comm, cmp_eq_gt_iff, signed, signed, if_neg negative, if_pos other]
    omega
  · have same : left.isNegative = right.isNegative := by simpa using differ
    exact compareLoop_eq same ((top left (by omega)).trans (top right (by omega)).symm)

/-- One and a half, in two representations. -/
theorem compare_value_same : cmp (value ⟨-1, [5, 1], by decide, false, false⟩)
    (value ⟨-3, [0, 0, 5, 1, 0], by decide, false, false⟩) = .eq :=
  (compare_value _ _ ⟨rfl, rfl⟩ (by simp)).symm.trans (by decide)

end Decimal

end Argentum.Userland
