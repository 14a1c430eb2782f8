/-
# Lib.ByteMap — writing a list into a function of positions

`put g off xs` is `g` with the entries of `xs` from position `off` on. A store that is cut
into cells of `m` positions (blocks, pages) keeps position `p` at `p % m` of cell `p / m`;
`put_cell` says that writing into one cell is the same write seen from the positions. `slice`
reads a stretch of positions back.
-/
import Mathlib.Data.List.Basic
import Mathlib.Data.Nat.Basic

/-- A string of bytes. -/
abbrev Argentum.Bytes := List UInt8

namespace Argentum.Lib.ByteMap

variable {α : Type} {off p : Nat} {xs : List α} {m : Nat}

def put (g : Nat → α) (off : Nat) (xs : List α) : Nat → α := fun p =>
  if off ≤ p then xs[p - off]?.getD (g p) else g p

@[simp] theorem put_nil (g : Nat → α) (off : Nat) : put g off [] = g := by
  funext p
  simp [put]

theorem put_out {g : Nat → α} (out : p < off ∨ off + xs.length ≤ p) : put g off xs p = g p := by
  unfold put
  split
  · rw [List.getElem?_eq_none_iff.mpr (by omega)]
    rfl
  · rfl

/-- Where the list reaches, what was there does not matter. -/
theorem put_in (g h : Nat → α) (low : off ≤ p)
    (high : p < off + xs.length) : put g off xs p = put h off xs p := by
  have inside : p - off < xs.length := by omega
  simp [put, if_pos low, List.getElem?_eq_getElem inside, Option.getD_some]

theorem put_congr {g h : Nat → α}
    (out : ¬ (off ≤ p ∧ p < off + xs.length) → g p = h p) : put g off xs p = put h off xs p := by
  by_cases inside : off ≤ p ∧ p < off + xs.length
  · exact put_in _ _ inside.1 inside.2
  · rw [put_out (by omega), put_out (by omega)]
    exact out inside

theorem put_append (g : Nat → α) (off : Nat) (xs ys : List α) :
    put (put g off xs) (off + xs.length) ys = put g off (xs ++ ys) := by
  funext p
  by_cases before : p < off
  · rw [put_out (.inl (by omega)), put_out (.inl before), put_out (.inl before)]
  have low : off ≤ p := Nat.le_of_not_lt before
  by_cases first : p < off + xs.length
  · rw [put_out (.inl first)]
    simp only [put]
    rw [List.getElem?_append_left (by omega)]
  · have second := Nat.le_of_not_lt first
    have behind : put g off xs p = g p := put_out (.inr second)
    have here : put (put g off xs) (off + xs.length) ys p =
        ys[p - (off + xs.length)]?.getD (put g off xs p) := if_pos second
    have there : put g off (xs ++ ys) p = (xs ++ ys)[p - off]?.getD (g p) := if_pos low
    rw [here, there, behind, List.getElem?_append_right (by omega), Nat.sub_sub]

/-- In the cell that `off` lies in. -/
theorem put_cell (g : Nat → α) (xs : List α) (same : p / m = off / m) :
    put g (off % m) xs (p % m) = put (fun q => g (q % m)) off xs p := by
  have atP := Nat.div_add_mod p m
  have atOff := Nat.div_add_mod off m
  rw [same] at atP
  have distance : p % m - off % m = p - off := by omega
  have order : off % m ≤ p % m ↔ off ≤ p := by omega
  simp [put, order, distance]

/-- In the other cells. -/
theorem put_other_cell (g : Nat → α)
    (fits : off % m + xs.length ≤ m) (other : p / m ≠ off / m) : put g off xs p = g p := by
  refine put_out ?_
  have atOff := Nat.div_add_mod off m
  by_contra inside
  refine other ?_
  rcases Nat.eq_zero_or_pos m with rfl | pos
  · simp
  have low : off / m * m ≤ p := by
    rw [Nat.mul_comm]
    omega
  have high : p < (off / m + 1) * m := by
    rw [Nat.add_mul, Nat.mul_comm]
    omega
  exact Nat.div_eq_of_lt_le low high

/-- The `n` entries from `off` on. -/
def slice (g : Nat → α) (off n : Nat) : List α := (List.range' off n).map g

variable (g : Nat → α)

include g

@[simp] theorem slice_zero (off : Nat) : slice g off 0 = [] := rfl

@[simp] theorem length_slice (off n : Nat) : (slice g off n).length = n := by
  simp [slice]

theorem slice_add (off m n : Nat) : slice g off (m + n) = slice g off m ++ slice g (off + m) n := by
  rw [slice, slice, slice, ← List.map_append, List.range'_append_1]

theorem slice_put_out {off' n : Nat} (out : off' + n ≤ off ∨ off + xs.length ≤ off') :
    slice (put g off xs) off' n = slice g off' n := by
  apply List.map_congr_left
  intro p inside
  rw [List.mem_range'_1] at inside
  exact put_out (by omega)

theorem slice_put (off : Nat) (xs : List α) : slice (put g off xs) off xs.length = xs := by
  apply List.ext_getElem (by simp)
  intro i small _
  have inside : i < xs.length := by simpa using small
  simp [slice, put, inside]

end Argentum.Lib.ByteMap
