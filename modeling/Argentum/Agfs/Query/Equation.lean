/-
# Agfs.Query.Equation — comparing an index key with the text of a query

`agfs_q_parse_value` turns the text of a value into a key of the index's type and
`agfs_q_key_matches` compares the two; the tree itself orders its keys by
`agfs_btree_key_cmp`.

The text is read with base 0, so a leading zero makes it octal. The comparison copies the bytes
of both keys into 64-bit variables that are 0, so a key of 1, 2 or 4 bytes is compared without
its sign. For a text that is read as what it says, the comparison is right for exactly the keys
on the same side of zero (`key_matches_iff`).
-/
import Argentum.Lib.ByteMap
import Mathlib.Algebra.Group.Nat.Defs
import Mathlib.Algebra.Group.Int.Defs

namespace Argentum.Agfs.Query

open List

/-! ## Reading the text -/

/-- The digit of a character, in any base up to 16. -/
def digitOf (c : Char) : Option Nat :=
  if '0' ≤ c ∧ c ≤ '9' then some (c.toNat - '0'.toNat)
  else if 'a' ≤ c ∧ c ≤ 'f' then some (c.toNat - 'a'.toNat + 10)
  else if 'A' ≤ c ∧ c ≤ 'F' then some (c.toNat - 'A'.toNat + 10)
  else none

/-- The loop of `agfs_q_strtou64`. -/
def accumulate (base : Nat) : Nat → List Char → Nat
  | value, [] => value
  | value, c :: s =>
    match digitOf c with
    | none => value
    | some d => if base ≤ d then value else accumulate base ((value * base + d) % 2 ^ 64) s

def skipBlanks (s : List Char) : List Char := s.dropWhile fun c => c == ' ' || c == '\t'

def skipPlus : List Char → List Char
  | '+' :: s => s
  | s => s

/-- Base 0: hexadecimal after `0x`, octal after `0`, else decimal. -/
def strtouBase0 : List Char → Nat
  | '0' :: 'x' :: s => accumulate 16 0 s
  | '0' :: 'X' :: s => accumulate 16 0 s
  | '0' :: s => accumulate 8 0 s
  | s => accumulate 10 0 s

/-- `agfs_q_strtou64(s, 0)`. -/
def strtou64 (s : List Char) : Nat := strtouBase0 (skipPlus (skipBlanks s))

/-- `agfs_q_strto64(s, 0)`, as its 64 bits. -/
def strto64 (s : List Char) : Nat :=
  match skipBlanks s with
  | '-' :: s => (2 ^ 64 - strtou64 s) % 2 ^ 64
  | '+' :: s => strtou64 s
  | s => strtou64 s

/-! ## Keys -/

inductive IntType
  | int8 | int16 | int32 | uint32 | int64 | uint64
  deriving DecidableEq

namespace IntType

/-- `agfs_qtype_size`. -/
def size : IntType → Nat
  | int8 => 1
  | int16 => 2
  | int32 | uint32 => 4
  | int64 | uint64 => 8

def signed : IntType → Bool
  | int8 | int16 | int32 | int64 => true
  | uint32 | uint64 => false

/-- The types whose sign the comparison of a query does not see. -/
def narrow : IntType → Bool
  | int8 | int16 | int32 => true
  | uint32 | int64 | uint64 => false

end IntType

/-- The number in little-endian bytes. -/
def load : Bytes → Nat
  | [] => 0
  | b :: bs => b.toNat + 256 * load bs

/-- The first `n` bytes of a number. -/
def store : Nat → Nat → Bytes
  | 0, _ => []
  | n + 1, x => UInt8.ofNat (x % 256) :: store n (x / 256)

/-- A number of `bits` bits as a signed variable holds it. -/
def asSigned (bits n : Nat) : Int := if 2 * n < 2 ^ bits then n else (n : Int) - 2 ^ bits

section

variable (t : IntType) (key : Bytes)

/-- What a variable of the type holds after `memcpy_b` from the key. -/
def IntType.value : Int :=
  if t.signed then asSigned (8 * t.size) (load key) else load key

/-- `agfs_q_parse_value` for the integer types; `tmp` has 63 characters. -/
def parseValue (text : List Char) : Bytes :=
  store t.size (if t.signed then strto64 (text.take 63) else strtou64 (text.take 63))

/-- `(a < b) ? -1 : (a > b) ? 1 : 0`. -/
def order (a b : Int) : Int := if a < b then -1 else if b < a then 1 else 0

inductive Op
  | equal | notEqual | greaterThan | greaterThanOrEqual | lessThan | lessThanOrEqual
  deriving DecidableEq

/-- The `switch` at the end of `agfs_q_key_matches`. -/
def Op.test : Op → Int → Bool
  | equal, cmp => cmp == 0
  | notEqual, cmp => cmp != 0
  | greaterThan, cmp => decide (0 < cmp)
  | greaterThanOrEqual, cmp => decide (0 ≤ cmp)
  | lessThan, cmp => decide (cmp < 0)
  | lessThanOrEqual, cmp => decide (cmp ≤ 0)

/-- `s1` and `s2`, or `u1` and `u2`: 64 bits, of which the key fills the first. -/
def widened : Int :=
  if t.signed then asSigned 64 (load key) else load key

/-- `agfs_q_key_matches` for the integer types, against the parsed value `c->key`. -/
def keyMatches (op : Op) (parsed key : Bytes) : Bool :=
  if key.length ≠ t.size then false else op.test (order (widened t key) (widened t parsed))

/-- `agfs_btree_key_cmp` for the integer types. -/
def btreeKeyCmp (k₁ k₂ : Bytes) : Int :=
  if k₁.length ≠ t.size ∨ k₂.length ≠ t.size then (k₁.length : Int) - k₂.length
  else order (t.value k₁) (t.value k₂)

theorem load_lt : load key < 256 ^ key.length := by
  induction key with
  | nil => decide
  | cons b bs ih =>
    have byte := b.toNat_lt
    rw [load, length_cons]
    omega

end

theorem length_store (n x : Nat) : (store n x).length = n := by
  induction n generalizing x with
  | zero => rfl
  | succ n ih => rw [store, length_cons, ih]

theorem load_store (n x : Nat) : load (store n x) = x % 256 ^ n := by
  induction n generalizing x with
  | zero => simp [store, load, Nat.mod_one]
  | succ n ih =>
    rw [store, load, ih, Nat.pow_succ', Nat.mod_mul]
    simp

/-! ## What a text says -/

inductive Sign
  | none | plus | minus
  deriving DecidableEq

def Sign.text : Sign → List Char
  | none => []
  | plus => ['+']
  | minus => ['-']

/-- An integer written in base 10. -/
structure Numeral where
  sign : Sign
  first : Fin 10
  rest : List (Fin 10)

def digitChar (d : Fin 10) : Char := Char.ofNat (48 + d)

/-- The number of a string of digits behind the number `n`. -/
def decimal (n : Nat) (ds : List (Fin 10)) : Nat := ds.foldl (fun n (d : Fin 10) => n * 10 + d) n

namespace Numeral

variable (num : Numeral)

def digits : List (Fin 10) := num.first :: num.rest

def text : List Char := num.sign.text ++ num.digits.map digitChar

def magnitude : Nat := decimal 0 num.digits

def value : Int := if num.sign = .minus then -num.magnitude else num.magnitude

/-- No zero stands before other digits; or the number is 0; or zeros stand before a digit below
8 that is still among the first 63 characters. -/
def ReadDecimal : Prop :=
  num.first ≠ 0 ∨ num.magnitude = 0 ∨ (num.magnitude < 8 ∧ num.text.length ≤ 63)

end Numeral

def IntType.InRange (t : IntType) (v : Int) : Prop :=
  if t.signed then -2 ^ (8 * t.size - 1) ≤ v ∧ v < 2 ^ (8 * t.size - 1)
  else 0 ≤ v ∧ v < 2 ^ (8 * t.size)

instance (t : IntType) (v : Int) : Decidable (t.InRange v) := by
  unfold IntType.InRange
  infer_instance

/-- The comparison an operator stands for. -/
def Op.Holds : Op → Int → Int → Prop
  | equal, a, b => a = b
  | notEqual, a, b => a ≠ b
  | greaterThan, a, b => b < a
  | greaterThanOrEqual, a, b => b ≤ a
  | lessThan, a, b => a < b
  | lessThanOrEqual, a, b => a ≤ b

/-- All six operators compare the key with the number, and as the tree does. -/
def Meets (t : IntType) (num : Numeral) (key : Bytes) : Prop :=
  ∀ op : Op,
    (keyMatches t op (parseValue t num.text) key = true ↔ op.Holds (t.value key) num.value) ∧
    (keyMatches t op (parseValue t num.text) key = true ↔
      op.test (btreeKeyCmp t key (parseValue t num.text)) = true)

/-! ## Decimal and octal readings -/

section Readings

variable {n v k : Nat} {d : Fin 10} {ds : List (Fin 10)}

theorem digitOf_digitChar (d : Fin 10) : digitOf (digitChar d) = some d.val := by
  revert d
  decide

theorem accumulate_cons (base v : Nat) (d : Fin 10) (ds : List (Fin 10)) :
    accumulate base v ((d :: ds).map digitChar) =
      if base ≤ d then v else accumulate base ((v * base + d) % 2 ^ 64) (ds.map digitChar) := by
  rw [map_cons, accumulate, digitOf_digitChar]

theorem decimal_cons (n : Nat) (d : Fin 10) (ds : List (Fin 10)) :
    decimal n (d :: ds) = decimal (n * 10 + d) ds := rfl

theorem le_decimal (n : Nat) (ds : List (Fin 10)) : n * 10 ^ ds.length ≤ decimal n ds := by
  induction ds generalizing n with
  | nil => simp [decimal]
  | cons d ds ih =>
    refine Nat.le_trans ?_ (ih (n * 10 + d))
    rw [length_cons, Nat.pow_succ', ← Nat.mul_assoc]
    exact Nat.mul_le_mul_right _ (Nat.le_add_right _ _)

theorem self_le_decimal (n : Nat) (ds : List (Fin 10)) : n ≤ decimal n ds :=
  Nat.le_trans (Nat.le_mul_of_pos_right _ (Nat.pow_pos (by decide))) (le_decimal n ds)

theorem accumulate_decimal (fits : decimal n ds < 2 ^ 64) :
    accumulate 10 n (ds.map digitChar) = decimal n ds := by
  induction ds generalizing n with
  | nil => rfl
  | cons d ds ih =>
    have bound := self_le_decimal (n * 10 + d) ds
    rw [decimal_cons] at fits
    rw [accumulate_cons, if_neg (by omega), Nat.mod_eq_of_lt (by omega), ih fits, decimal_cons]

/-- Once the octal number is behind it stays behind. -/
theorem octal_lt (behind : v < n) (ds : List (Fin 10)) :
    accumulate 8 v (ds.map digitChar) < decimal n ds := by
  induction ds generalizing v n with
  | nil => exact behind
  | cons d ds ih =>
    have bound := self_le_decimal (n * 10 + d) ds
    rw [accumulate_cons, decimal_cons]
    split
    · omega
    · exact ih (by omega)

/-- Read as octal, digits are the number they say if that is below 8. -/
theorem octal_le (ds : List (Fin 10)) :
    accumulate 8 0 (ds.map digitChar) ≤ decimal 0 ds ∧
      (accumulate 8 0 (ds.map digitChar) = decimal 0 ds ↔ decimal 0 ds < 8) := by
  induction ds with
  | nil => exact ⟨Nat.le_refl _, by simp [accumulate, decimal]⟩
  | cons d ds ih =>
    have bound := self_le_decimal d ds
    rw [accumulate_cons, decimal_cons, Nat.zero_add]
    by_cases zero : d.val = 0
    · simpa [zero] using ih
    split
    · omega
    rw [Nat.mod_eq_of_lt (by omega)]
    cases ds with
    | nil =>
      show d.val ≤ d ∧ (d.val = d ↔ d.val < 8)
      omega
    | cons e es =>
      have more := self_le_decimal (d.val * 10 + e) es
      have wrapped := Nat.mod_le (d.val * 8 + e) (2 ^ 64)
      have less := octal_lt (Nat.lt_of_le_of_lt wrapped
        (show d.val * 8 + e < d.val * 10 + e by omega)) es
      rw [accumulate_cons, decimal_cons]
      split <;> omega

/-- Digits that are cut off change the number unless it is 0. -/
theorem decimal_take (k : Nat) (ds : List (Fin 10)) :
    decimal 0 (ds.take k) ≤ decimal 0 ds ∧
      (k < ds.length → decimal 0 (ds.take k) = decimal 0 ds → decimal 0 ds = 0) := by
  have parts : decimal 0 ds = decimal (decimal 0 (ds.take k)) (ds.drop k) := by
    rw [decimal, decimal, decimal, ← foldl_append, take_append_drop]
  refine ⟨parts ▸ self_le_decimal _ _, fun cut same => ?_⟩
  cases left : ds.drop k with
  | nil => simp [drop_eq_nil_iff] at left; omega
  | cons e es =>
    have more := self_le_decimal (decimal 0 (ds.take k) * 10 + e) es
    rw [left, decimal_cons] at parts
    omega

/-- What `strtou64` makes of a string of digits. -/
theorem strtouBase0_digits (d : Fin 10) (ds : List (Fin 10)) :
    strtouBase0 ((d :: ds).map digitChar) =
      if d = 0 then accumulate 8 0 (ds.map digitChar)
      else accumulate 10 0 ((d :: ds).map digitChar) := by
  have notHex : ∀ e : Fin 10, digitChar e ≠ 'x' ∧ digitChar e ≠ 'X' := by decide
  have zero : ∀ e : Fin 10, digitChar e = '0' ↔ e = 0 := by decide
  rw [map_cons]
  unfold strtouBase0
  split
  · cases ds <;> simp_all
  · cases ds <;> simp_all
  · simp_all
  · rename_i s _ _ other
    rw [if_neg fun here => other _ (by rw [(zero d).mpr here])]

end Readings

namespace Numeral

variable (num : Numeral)

/-- The number that is read off the digits. -/
def reading : Nat := strtouBase0 ((num.digits.take (63 - num.sign.text.length)).map digitChar)

theorem reading_le (fits : num.magnitude < 2 ^ 64) :
    num.reading ≤ num.magnitude ∧ (num.reading = num.magnitude ↔ num.ReadDecimal) := by
  obtain ⟨sign, d, ds⟩ := num
  have room : ∃ k, 63 - sign.text.length = k + 1 := by cases sign <;> exact ⟨_, rfl⟩
  obtain ⟨k, room⟩ := room
  have length : (⟨sign, d, ds⟩ : Numeral).text.length ≤ 63 ↔ ds.length ≤ k := by
    simp only [text, digits, length_append, length_map, length_cons]
    omega
  simp only [reading, magnitude, ReadDecimal, digits, room, take_succ_cons,
    strtouBase0_digits] at fits ⊢
  by_cases zero : d = 0
  · subst zero
    have octal := octal_le (ds.take k)
    have cut := decimal_take k ds
    have all : ds.length ≤ k → ds.take k = ds := take_of_length_le
    have start : decimal 0 (0 :: ds) = decimal 0 ds := rfl
    simp only [if_true]
    by_cases short : ds.length ≤ k
    · rw [all short] at octal ⊢
      omega
    · omega
  · have long := le_decimal (0 * 10 + d) ds
    rw [decimal_cons] at fits
    have few : ds.length ≤ k := by
      have bound : k ≥ 61 := by cases sign <;> simp [Sign.text] at room <;> omega
      by_contra more
      have big : 10 ^ 61 ≤ 10 ^ ds.length := Nat.pow_le_pow_right (by decide) (by omega)
      have : 10 ^ ds.length ≤ (0 * 10 + d.val) * 10 ^ ds.length :=
        Nat.le_mul_of_pos_left _ (by omega)
      omega
    rw [take_of_length_le few, accumulate_decimal (decimal_cons 0 d ds ▸ fits)]
    simp [zero]

theorem skip_digits (d : Fin 10) (ds : List (Fin 10)) :
    skipBlanks ((d :: ds).map digitChar) = (d :: ds).map digitChar ∧
      skipPlus ((d :: ds).map digitChar) = (d :: ds).map digitChar := by
  have apart : ∀ e : Fin 10, digitChar e ≠ ' ' ∧ digitChar e ≠ '\t' ∧ digitChar e ≠ '+' := by decide
  obtain ⟨space, tab, plus⟩ := apart d
  constructor
  · simp [skipBlanks, space, tab]
  unfold skipPlus
  split
  · rename_i same
    exact absurd (List.cons.inj same).1 plus
  · rfl

theorem strto64_text :
    strto64 (num.text.take 63) =
        (if num.sign = .minus then (2 ^ 64 - num.reading) % 2 ^ 64 else num.reading) ∧
      strtou64 (num.text.take 63) = if num.sign = .minus then 0 else num.reading := by
  obtain ⟨sign, d, ds⟩ := num
  have apart : ∀ e : Fin 10, digitChar e ≠ '-' ∧ digitChar e ≠ '+' := by decide
  have plain : ∀ es, strtou64 ((d :: es).map digitChar) = strtouBase0 ((d :: es).map digitChar) :=
    fun es => by rw [strtou64, (skip_digits d es).1, (skip_digits d es).2]
  obtain ⟨es, cut⟩ : ∃ es, (d :: ds).take (63 - sign.text.length) = d :: es := by
    cases sign <;> exact ⟨_, rfl⟩
  have read : (⟨sign, d, ds⟩ : Numeral).text.take 63 = sign.text ++ (d :: es).map digitChar := by
    rw [text, take_append, take_of_length_le (by cases sign <;> simp [Sign.text]), digits,
      ← map_take, cut]
  rw [read, reading, digits, cut]
  cases sign with
  | none =>
    refine ⟨?_, plain es⟩
    rw [Sign.text, nil_append, strto64, (skip_digits d es).1]
    split
    · rename_i same
      exact absurd (List.cons.inj same).1 (apart d).1
    · rename_i same
      exact absurd (List.cons.inj same).1 (apart d).2
    · exact plain es
  | plus => exact ⟨plain es, rfl⟩
  | minus => exact ⟨congrArg (fun n => (2 ^ 64 - n) % 2 ^ 64) (plain es), rfl⟩

end Numeral

variable {key : Bytes} {t : IntType}

open IntType

/-- A key that holds the low bytes of a number in range holds the number. -/
theorem value_store {v : Int} (inRange : t.InRange v) {x : Nat}
    (low : (x : Int) % 256 ^ t.size = v % 256 ^ t.size) : t.value (store t.size x) = v := by
  cases t <;>
    simp only [value, size, signed, IntType.InRange, load_store, asSigned,
      if_true, Bool.false_eq_true, if_false] at inRange low ⊢
  all_goals omega

theorem Numeral.magnitude_lt {num : Numeral} (inRange : t.InRange num.value) :
    num.magnitude < 2 ^ 64 := by
  cases t <;> simp only [IntType.InRange, size, signed, if_true,
    Bool.false_eq_true, if_false, Numeral.value] at inRange <;> omega

/-- The parsed key holds the reading. -/
theorem value_parseValue {num : Numeral} (inRange : t.InRange num.value) :
    t.value (parseValue t num.text) =
      if num.sign = .minus then -(num.reading : Int) else num.reading := by
  have le := (num.reading_le (Numeral.magnitude_lt inRange)).1
  obtain ⟨signedBits, unsignedBits⟩ := num.strto64_text
  rw [parseValue, signedBits, unsignedBits]
  simp only [Numeral.value] at inRange
  refine value_store ?_ ?_ <;> by_cases minus : num.sign = .minus <;> cases t <;>
    simp only [minus, IntType.InRange, size, signed, if_true,
      Bool.false_eq_true, if_false] at inRange ⊢ <;> omega

/-! ## The comparison -/

section Order

variable (a b : Int)

theorem order_neg : order a b < 0 ↔ a < b := by unfold order; omega

theorem order_pos : 0 < order a b ↔ b < a := by unfold order; omega

theorem test_order (op : Op) : op.test (order a b) = true ↔ op.Holds a b := by
  have neg := order_neg a b
  have pos := order_pos a b
  cases op <;> simp only [Op.test, Op.Holds, beq_iff_eq, bne_iff_ne, decide_eq_true_eq] <;> omega

end Order

/-- Two comparisons are one for all operators if they agree on less and equal. -/
theorem holds_iff {x y a b : Int} :
    (∀ op : Op, op.Holds x y ↔ op.Holds a b) ↔ (x < y ↔ a < b) ∧ (x = y ↔ a = b) := by
  refine ⟨fun all => ⟨all .lessThan, all .equal⟩, fun ⟨less, equal⟩ op => ?_⟩
  cases op <;> simp only [Op.Holds] <;> omega

theorem length_parseValue (t : IntType) (text : List Char) :
    (parseValue t text).length = t.size := length_store _ _

theorem meets_iff {num : Numeral} (sized : key.length = t.size) :
    Meets t num key ↔
      ((∀ op : Op, op.Holds (widened t key) (widened t (parseValue t num.text)) ↔
          op.Holds (t.value key) num.value) ∧
        ∀ op : Op, op.Holds (widened t key) (widened t (parseValue t num.text)) ↔
          op.Holds (t.value key) (t.value (parseValue t num.text))) := by
  simp [Meets, keyMatches, btreeKeyCmp, sized, length_parseValue, test_order, forall_and]

/-- The variables that are compared have the keys' values, but for the sign of a narrow one. -/
theorem widened_eq (sized : key.length = t.size) :
    widened t key = if t.narrow ∧ t.value key < 0 then t.value key + 256 ^ t.size
      else t.value key := by
  have bound := load_lt key
  rw [sized] at bound
  cases t <;> simp only [widened, value, size, signed, narrow,
    asSigned, if_true, Bool.false_eq_true, if_false, false_and, true_and] at bound ⊢ <;> omega

theorem value_inRange (sized : key.length = t.size) : t.InRange (t.value key) := by
  have bound := load_lt key
  rw [sized] at bound
  cases t <;> simp only [value, size, signed, IntType.InRange, asSigned,
    if_true, Bool.false_eq_true, if_false] at bound ⊢ <;> omega

/-- **When a query equation respects the index type.** For every integer type and every number
in its range as text: the text is read as decimal iff, for every key of the type, all
six operators compare the key with the number, and as the tree does, exactly when the type is
not one of 8, 16 or 32 signed bits or the two are on the same side of zero. -/
theorem key_matches_iff (t : IntType) (num : Numeral) (inRange : t.InRange num.value) :
    (∀ key : List UInt8, key.length = t.size →
      (Meets t num key ↔ (t.narrow = true → (t.value key < 0 ↔ num.value < 0)))) ↔
        num.ReadDecimal := by
  have read := value_parseValue inRange
  have decimal := (num.reading_le (Numeral.magnitude_lt inRange)).2
  constructor
  · -- the key that holds the number itself
    intro all
    have low : (((num.value % 256 ^ t.size).toNat : Nat) : Int) % 256 ^ t.size =
        num.value % 256 ^ t.size := by
      rw [Int.toNat_of_nonneg (Int.emod_nonneg _ (by cases t <;> decide)), Int.emod_emod]
    have value := value_store inRange low
    have sized := length_store t.size (num.value % 256 ^ t.size).toNat
    have meets := (meets_iff sized).mp ((all _ sized).mpr fun _ => by rw [value])
    have same : num.value = _ := value ▸ (meets.2 .equal).mp ((meets.1 .equal).mpr value)
    rw [Numeral.value] at same
    exact decimal.mp (by split at same <;> omega)
  · intro isDecimal key sized
    have exact : t.value (parseValue t num.text) = num.value := by
      rw [read, decimal.mpr isDecimal, Numeral.value]
    have range := value_inRange sized
    rw [meets_iff sized, exact, holds_iff, widened_eq sized,
      widened_eq (length_parseValue t num.text), exact]
    cases t <;> simp only [IntType.InRange, size, signed, narrow, if_true,
      Bool.false_eq_true, if_false, false_and, true_and, forall_const, IsEmpty.forall_iff]
      at inRange range ⊢ <;> omega

/-- The text `200`, and the key 100. -/
theorem key_matches_iff_plain :
    (∀ key : List UInt8, key.length = IntType.int16.size →
      (Meets .int16 ⟨.none, 2, [0, 0]⟩ key ↔
        (IntType.int16.narrow = true →
          (IntType.int16.value key < 0 ↔ Numeral.value ⟨.none, 2, [0, 0]⟩ < 0)))) ∧
      Meets .int16 ⟨.none, 2, [0, 0]⟩ [100, 0] := by
  have all := (key_matches_iff .int16 ⟨.none, 2, [0, 0]⟩ (by decide)).mpr (.inl (by decide))
  exact ⟨all, (all [100, 0] rfl).mpr fun _ => by decide⟩

/-- The key -1 is not found less than 1, though the tree has it there; and the key 10 is not
found equal to `010`. -/
theorem sign_lost :
    IntType.int8.value [255] = -1 ∧ Numeral.value ⟨.none, 1, []⟩ = 1 ∧
      keyMatches .int8 .lessThan (parseValue .int8 (Numeral.text ⟨.none, 1, []⟩)) [255] = false ∧
      btreeKeyCmp .int8 [255] (parseValue .int8 (Numeral.text ⟨.none, 1, []⟩)) = -1 ∧
      Numeral.value ⟨.none, 0, [1, 0]⟩ = 10 ∧
      keyMatches .uint32 .equal (parseValue .uint32 (Numeral.text ⟨.none, 0, [1, 0]⟩))
        [10, 0, 0, 0] = false := by
  decide +kernel

end Argentum.Agfs.Query
