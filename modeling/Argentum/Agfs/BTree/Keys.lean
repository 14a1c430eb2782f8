/-
# Agfs.BTree.Keys — how `agfs_btree_key_cmp` orders keys

The keys of a directory are names: strings of bytes without a zero. `strncmp` of the kernel's
library compares them as `char`, which is signed, and a name comes before its extensions. Of the
numeric trees the 64-bit ones are here: eight bytes, compared as one signed number. Both are
linear orders, and these are the orders the tree's functions use.
-/
import Argentum.Lib.ByteMap
import Argentum.Agfs.BTree.Store
import Mathlib.Data.List.Lex

namespace Argentum.Agfs.BTree

open List

/-! ## Strings -/

/-- A byte as `char`. -/
def signedChar (b : UInt8) : Int := if b.toNat < 128 then b.toNat else b.toNat - 256

/-- `strncmp` of `lib/string.c`. -/
def strncmp : Bytes → Bytes → Nat → Int
  | a :: as, b :: bs, n + 1 =>
    if a ≠ 0 ∧ b ≠ 0 then
      if a ≠ b then (if signedChar a < signedChar b then -1 else 1)
      else strncmp as bs n
    else if signedChar a < signedChar b then -1
    else if signedChar a > signedChar b then 1
    else 0
  | _, _, _ => 0

/-- `agfs_btree_key_cmp` for `AGFS_BTREE_STRING_TYPE`. -/
def keyCmp (k₁ k₂ : Bytes) : Int :=
  let cmp := strncmp k₁ k₂ (min k₁.length k₂.length)
  if cmp = 0 then (k₁.length : Int) - k₂.length else cmp

/-- A name: no byte of it is zero. -/
structure StringKey where
  bytes : Bytes
  nonzero : 0 ∉ bytes

theorem signedChar_injective : Function.Injective signedChar := by
  intro a b same
  have small_a := a.toNat_lt
  have small_b := b.toNat_lt
  unfold signedChar at same
  apply UInt8.toNat_inj.mp
  split at same <;> split at same <;> omega

variable {a b : UInt8}

theorem strncmp_cons (ha : a ≠ 0) (hb : b ≠ 0) (as bs : Bytes) (n : Nat) :
    strncmp (a :: as) (b :: bs) (n + 1) =
      if a = b then strncmp as bs n else if signedChar a < signedChar b then -1 else 1 := by
  rw [strncmp, if_pos ⟨ha, hb⟩, ite_not]

theorem keyCmp_cons {as bs : Bytes} (ha : a ≠ 0) (hb : b ≠ 0) :
    keyCmp (a :: as) (b :: bs) =
      if a = b then keyCmp as bs else if signedChar a < signedChar b then -1 else 1 := by
  unfold keyCmp
  rw [length_cons, length_cons, Nat.succ_min_succ, strncmp_cons ha hb]
  by_cases same : a = b
  · push_cast
    split <;> omega
  · rw [if_neg same]
    split <;> simp

/-- The comparison is that of the strings of signed characters, read like words in a dictionary. -/
theorem keyCmp_neg_iff {k₁ k₂ : Bytes} (nonzero₁ : 0 ∉ k₁) (nonzero₂ : 0 ∉ k₂) :
    keyCmp k₁ k₂ < 0 ↔ k₁.map signedChar < k₂.map signedChar := by
  induction k₁ generalizing k₂ with
  | nil =>
    cases k₂ with
    | nil => simp [keyCmp, strncmp]
    | cons b bs =>
      simp only [keyCmp, strncmp, length_nil, length_cons, if_true]
      exact iff_of_true (by omega) (nil_lt_cons _ _)
  | cons a as ih =>
    cases k₂ with
    | nil =>
      simp only [keyCmp, strncmp, length_nil]
      exact iff_of_false (by omega) (by simp)
    | cons b bs =>
      rw [mem_cons, not_or] at nonzero₁ nonzero₂
      rw [keyCmp_cons (Ne.symm nonzero₁.1) (Ne.symm nonzero₂.1), map_cons, map_cons,
        cons_lt_cons_iff]
      split
      · rename_i same
        rw [ih nonzero₁.2 nonzero₂.2, same]
        simp
      · rename_i other
        have apart : signedChar a ≠ signedChar b := fun same => other (signedChar_injective same)
        split
        · rename_i less
          exact iff_of_true (by decide) (.inl less)
        · rename_i more
          exact iff_of_false (by decide) fun le => le.elim more fun both => apart both.1

theorem StringKey.map_injective :
    Function.Injective fun key : StringKey => key.bytes.map signedChar := by
  rintro ⟨a, _⟩ ⟨b, _⟩ same
  have bytes : a = b := map_injective_iff.mpr signedChar_injective same
  subst bytes
  rfl

instance : TreeKey StringKey where
  toLinearOrder :=
    LinearOrder.lift' (fun key : StringKey => key.bytes.map signedChar) StringKey.map_injective
  keylen key := key.bytes.length

/-- **The order of a tree of names is the comparison of the source.** -/
theorem stringKey_lt_iff {k₁ k₂ : StringKey} : k₁ < k₂ ↔ keyCmp k₁.bytes k₂.bytes < 0 :=
  (keyCmp_neg_iff k₁.nonzero k₂.nonzero).symm

/-! ## 64-bit numbers -/

/-- A key of an `AGFS_BTREE_INT64_TYPE` tree: its eight bytes as one word. -/
structure Int64Key where
  bits : BitVec 64

/-- `agfs_btree_key_cmp` for `AGFS_BTREE_INT64_TYPE` and keys of eight bytes. -/
def keyCmpInt64 (k₁ k₂ : BitVec 64) : Int :=
  if k₁.toInt < k₂.toInt then -1 else if k₁.toInt > k₂.toInt then 1 else 0

theorem Int64Key.toInt_injective : Function.Injective fun key : Int64Key => key.bits.toInt := by
  rintro ⟨a⟩ ⟨b⟩ same
  have bits : a = b := BitVec.eq_of_toInt_eq same
  subst bits
  rfl

instance : TreeKey Int64Key where
  toLinearOrder := LinearOrder.lift' (fun key : Int64Key => key.bits.toInt) Int64Key.toInt_injective
  keylen _ := 8

theorem Int64Key.lt_iff {k₁ k₂ : Int64Key} : k₁ < k₂ ↔ keyCmpInt64 k₁.bits k₂.bits < 0 := by
  unfold keyCmpInt64
  split
  · rename_i less
    exact iff_of_true less (by decide)
  · rename_i more
    refine iff_of_false more ?_
    split <;> decide

end Argentum.Agfs.BTree
