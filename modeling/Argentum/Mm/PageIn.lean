/-
# Mm.PageIn — what `bread_page` reports

A page is read block by block: a request for each block that `bmap` maps, one `gbread` of them all,
and a copy of every buffer to its place. Memory and the device are there; any mapping and any read
may fail. The page and a buffer that was not read hold anything. A small AGFS file has its bytes in
the inode: `bread_page` asks `bmap` for its blocks all the same, and finds holes.

`page_in_reports`: a mapping that fails is not reported, nor a read that an interrupt ends or that
comes before one that the driver ends well; behind the end of the file stands what the block holds,
and for a file in its inode what the holes hold, zeros.
-/
import Mathlib.Algebra.Group.Nat.Defs
import Mathlib.Data.List.TakeWhile

namespace Argentum.Mm.PageIn

/-- One block of the page. -/
structure Block where
  /-- What the device holds, `none` in a hole. -/
  data : Option (Nat → UInt8)
  /-- `bmap` is not negative. -/
  mapped : Bool
  /-- What `read_block` returns; 0 where an interrupt ends it, or where the buffer is valid. -/
  returned : Int
  /-- The bytes are in the buffer in the end. -/
  arrived : Bool

/-- The driver itself ends the request and sets `brh->errno`. -/
def Block.ended (b : Block) : Bool := b.data.isSome && b.returned != 0

/-- The errno of `gbread` is that of the request which ended last. -/
def gbread (errno : Int) : List Block → Int
  | [] => errno
  | b :: brs => gbread (if b.ended then b.returned else errno) brs

/-- What is copied from a block, zeros from a hole. -/
def Block.copied (b : Block) (stale : UInt8) (y : Nat) : UInt8 :=
  b.data.elim 0 fun bytes => if b.arrived then bytes y else stale

/-- `bread_page` on the blocks of a page; `none`: it copies from a request without a buffer. -/
def breadPage (blocks : List Block) (page : Nat → Nat → UInt8) (stale : UInt8) :
    Option (Int × (Nat → Nat → UInt8)) :=
  let brs := blocks.takeWhile Block.mapped
  let retval := if brs.length < blocks.length then 1 else gbread 0 brs
  if retval < 0 then some (retval, page)
  else if brs.length < blocks.length ∧ brs.any (·.data.isSome) then none
  else some (0, fun k => brs[k]?.elim (page k) (·.copied stale))

/-- What the device holds, zeros in a hole. -/
def Block.held (b : Block) (y : Nat) : UInt8 := b.data.elim 0 (· y)

/-- Byte `y` of a block of the file that begins at `start`; `tail` are the bytes of a file that is
in its inode. -/
def Block.byte (b : Block) (tail : Option (Nat → UInt8)) (size start y : Nat) : UInt8 :=
  if start + y < size then tail.elim (b.held y) (· (start + y)) else 0

variable (bits offset size : Nat) (tail : Option (Nat → UInt8)) (blocks : List Block)

/-- The call returns, and 0 only with the bytes of the file in the page. -/
def Reports (page : Nat → Nat → UInt8) (stale : UInt8) : Prop :=
  ∃ out ∈ breadPage blocks page stale, out.1 = 0 → ∀ k b, blocks[k]? = some b →
    ∀ y < 2 ^ bits, out.2 k y = b.byte tail size (offset + k * 2 ^ bits) y

theorem gbread_eq (errno : Int) :
    gbread errno blocks = ((blocks.reverse.find? Block.ended).map Block.returned).getD errno := by
  induction blocks generalizing errno with
  | nil => rfl
  | cons b brs ih =>
    rw [gbread, ih, List.reverse_cons, List.find?_append]
    cases brs.reverse.find? Block.ended with
    | some c => rfl
    | none => cases ended : b.ended <;> simp [ended]

theorem Block.copied_eq {b : Block} (arrived : b.data.isSome → b.arrived) (stale : UInt8) (y : Nat) :
    b.copied stale y = b.held y := by
  unfold copied held
  cases data : b.data with
  | none => rfl
  | some bytes => simp [arrived (by rw [data]; rfl)]

/-- **What is reported**, whatever the page and the buffers held. -/
theorem page_in_reports :
    (∀ page stale, Reports bits offset size tail blocks page stale) ↔
      (∀ b ∈ blocks, b.mapped) ∧
        ((∃ b, blocks.reverse.find? Block.ended = some b ∧ b.returned < 0) ∨
          ∀ k b, blocks[k]? = some b → (b.data.isSome → b.arrived) ∧ ∀ y < 2 ^ bits,
            (size ≤ offset + k * 2 ^ bits + y → b.held y = 0) ∧
            (offset + k * 2 ^ bits + y < size →
              ∀ bytes ∈ tail, b.held y = bytes (offset + k * 2 ^ bits + y))) := by
  have positive := Nat.two_pow_pos bits
  have failed : (∃ b, blocks.reverse.find? Block.ended = some b ∧ b.returned < 0) ↔
      gbread 0 blocks < 0 := by
    rw [gbread_eq]
    cases blocks.reverse.find? Block.ended <;> simp
  rw [failed, ← List.takeWhile_eq_self_iff]
  by_cases all : blocks.takeWhile Block.mapped = blocks
  · by_cases error : gbread 0 blocks < 0
    · simp [Reports, breadPage, all, error, Int.ne_of_lt error]
    have returns : ∀ page stale, breadPage blocks page stale =
        some (0, fun k => blocks[k]?.elim (page k) (·.copied stale)) := by
      simp [breadPage, all, error]
    simp only [Reports, returns, all, error, Option.mem_some_iff, exists_eq_left', true_and,
      false_or, true_implies]
    constructor
    · intro reports k b here
      have holds := fun stale => reports (fun _ _ => 0) stale k b here
      simp only [here, Option.elim_some] at holds
      have arrived : b.data.isSome → b.arrived := by
        intro some
        obtain ⟨bytes, data⟩ := Option.isSome_iff_exists.mp some
        by_contra lost
        simp only [Block.copied, data, Option.elim_some, lost] at holds
        exact absurd ((holds 0 0 positive).trans (holds 1 0 positive).symm) (by simp)
      refine ⟨arrived, fun y inside => ⟨fun behind => ?_, fun before bytes inTail => ?_⟩⟩
      · rw [← Block.copied_eq arrived 0, holds 0 y inside, Block.byte, if_neg behind.not_gt]
      · rw [← Block.copied_eq arrived 0, holds 0 y inside, Block.byte, if_pos before, inTail]
        rfl
    · intro good page stale k b here y inside
      obtain ⟨arrived, bytes⟩ := good k b here
      simp only [here, Option.elim_some, Block.copied_eq arrived, Block.byte]
      split
      · rename_i before
        cases inTail : tail with
        | none => rfl
        | some tail => exact (bytes y inside).2 before tail inTail
      · exact (bytes y inside).1 (Nat.le_of_not_lt ‹_›)
  · -- the first block without a request keeps what the page held
    have shorter := Nat.lt_of_le_of_ne (List.takeWhile_prefix Block.mapped).length_le
      fun same => all (List.takeWhile_prefix _ |>.eq_of_length same)
    refine iff_of_false (fun reports => ?_) fun safe => all safe.1
    obtain ⟨zeros, returned, right⟩ := reports (fun _ _ => 0) 0
    obtain ⟨ones, returned', right'⟩ := reports (fun _ _ => 1) 0
    simp only [breadPage, shorter, if_true, true_and] at returned returned'
    cases (Option.ite_none_left_eq_some.mp returned).2
    cases (Option.ite_none_left_eq_some.mp returned').2
    have here := List.getElem?_eq_getElem shorter
    have same := (right rfl _ _ here 0 positive).trans (right' rfl _ _ here 0 positive).symm
    simp at same

/-- One block of 4096 bytes: `bmap` fails, and the page stays as it was. And a file of 5 bytes in its
inode: the page is zero. -/
theorem failed_mapping_hidden :
    ¬Reports 12 0 4096 none [⟨some fun _ => 7, false, 0, true⟩] (fun _ _ => 0) 0 ∧
      ¬Reports 12 0 5 (some fun _ => 7) [⟨none, true, 0, true⟩] (fun _ _ => 0) 0 := by
  constructor <;>
  · rintro ⟨out, returned, right⟩
    cases returned
    exact absurd (right rfl 0 _ rfl 0 (by decide)) (by decide)

end Argentum.Mm.PageIn
