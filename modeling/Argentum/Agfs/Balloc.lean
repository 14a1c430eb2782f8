/-
# Agfs.Balloc — the cached bitmap and the block allocator

Every allocation group has `blocks_per_ag` bitmap blocks; all of them lie behind the
superblock, group after group, and are cached whole. A block's bit is found by its
offset in that cache (`bitOffset`), `bpb = block_size * 8` bits to a block, and a set
bit means the block is used.

The allocator changes the cache only; the journal writes it out (`Agfs.Journal`).
The pending discard extents are left out.
-/
import Argentum.Agfs.Layout
import Argentum.Kernel.Errno

namespace Argentum.Agfs

/-- The allocator's fields of `sb->u.agfs`. -/
structure Space where
  /-- The bitmap, by bit offset. -/
  bitmap : Nat → Bool
  nextFree : Nat
  usedBlocks : UInt64

namespace Geometry

variable (g : Geometry) (bpb : Nat)

/-- `agfs_bitmap_byte`, in bits. -/
def bitOffset (block : Nat) : Nat :=
  block / 2 ^ g.agShift * g.blocksPerAg * bpb + block % 2 ^ g.agShift

/-- The bitmap blocks hold a bit for every block of the volume. -/
def BitmapCovers : Prop := ∀ b < g.numBlocks, g.bitOffset bpb b < g.bitmapBlocks * bpb

instance : Decidable (g.BitmapCovers bpb) := by unfold BitmapCovers; infer_instance

/-- The blocks of the volume in the order a search from `hint` meets them. -/
def searchOrder (hint : Nat) : List Nat :=
  List.range' hint (g.numBlocks - hint) ++ List.range hint

end Geometry

/-- Every block has a bit of its own, if a group's bitmap has room for the group. -/
theorem groupBit_inj {size perAg bpb b c : Nat} (some : 0 < size) (roomy : size ≤ perAg * bpb)
    (same : b / size * perAg * bpb + b % size = c / size * perAg * bpb + c % size) : b = c := by
  have low : ∀ x, x % size < perAg * bpb := fun x => Nat.lt_of_lt_of_le (Nat.mod_lt x some) roomy
  rw [Nat.mul_assoc, Nat.mul_assoc] at same
  have group : b / size = c / size := by
    have divided := congrArg (· / (perAg * bpb)) same
    simpa only [Nat.mul_comm _ (perAg * bpb), Nat.mul_add_div (Nat.lt_of_lt_of_le some roomy),
      Nat.div_eq_of_lt (low _), Nat.add_zero] using divided
  have bit : b % size = c % size := by
    rw [group] at same
    exact Nat.add_left_cancel same
  rw [← Nat.div_add_mod b size, group, bit, Nat.div_add_mod]

namespace Space

variable (g : Geometry) (bpb : Nat) (s : Space)

/-- `agfs_bitmap_test`. -/
def test (block : Nat) : Bool := s.bitmap (g.bitOffset bpb block)

/-- `agfs_bitmap_set` and `agfs_bitmap_clear`. -/
def mark (block : Nat) (used : Bool) : Space :=
  { s with bitmap := Function.update s.bitmap (g.bitOffset bpb block) used }

/-- The first free block from the hint on, around the end of the volume. -/
def firstFree : Option Nat :=
  let hint := if g.numBlocks ≤ s.nextFree then 0 else s.nextFree
  (g.searchOrder hint).find? fun b => !s.test g bpb b

/-- `agfs_balloc`. -/
def balloc : Except Errno (Space × Nat) :=
  match s.firstFree g bpb with
  | some b =>
    .ok ({ s.mark g bpb b true with usedBlocks := s.usedBlocks + 1, nextFree := b + 1 }, b)
  | none => .error .enospc

/-- `agfs_balloc_specific`. -/
def ballocSpecific (block : Nat) : Except Errno Space :=
  if g.numBlocks ≤ block then .error .einval
  else if s.test g bpb block then .error .eexist
  else .ok { s.mark g bpb block true with usedBlocks := s.usedBlocks + 1 }

/-- The window of `agfs_balloc_contig`: the free blocks from `first + got` on, up to
`want`, the end of the volume or the end of the group. -/
def window (first : Nat) : Nat → Nat → Space → Space × Nat
  | 0, got, s => (s, got)
  | want + 1, got, s =>
    let b := first + got
    if g.numBlocks ≤ b ∨ (first < b ∧ b % 2 ^ g.agShift = 0) ∨ s.test g bpb b then (s, got)
    else window first want (got + 1) (s.mark g bpb b true)

/-- `agfs_balloc_contig`, with the first block and the number taken. -/
def ballocContig (want : Nat) : Except Errno (Space × Nat × Nat) :=
  match s.firstFree g bpb with
  | some first =>
    let (s', got) := window g bpb first want 0 s
    let next := first + got
    .ok ({ s' with
            usedBlocks := s.usedBlocks + UInt64.ofNat got
            nextFree := if g.numBlocks ≤ next then 0 else next }, first, got)
  | none => .error .enospc

/-- `agfs_bfree`. -/
def bfree (block : Nat) : Space :=
  if g.numBlocks ≤ block then s
  else if s.test g bpb block then
    { s.mark g bpb block false with
      usedBlocks := s.usedBlocks - 1
      nextFree := if block < s.nextFree then block else s.nextFree }
  else s

/-- `agfs_resync_used_blocks`, without the report. -/
def resyncUsedBlocks : Space :=
  { s with
    usedBlocks :=
      UInt64.ofNat (((List.range g.numBlocks).filter (s.test g bpb)).length % 2 ^ 32) }

/-- One call of the allocator; a call that fails changes nothing. -/
inductive Call where
  | balloc
  | ballocSpecific (block : Nat)
  | ballocContig (want : Nat)
  | bfree (block : Nat)
  deriving DecidableEq

def call : Call → Space
  | .balloc => match s.balloc g bpb with
      | .ok (s', _) => s'
      | .error _ => s
  | .ballocSpecific block => match s.ballocSpecific g bpb block with
      | .ok s' => s'
      | .error _ => s
  | .ballocContig want => match s.ballocContig g bpb want with
      | .ok (s', _, _) => s'
      | .error _ => s
  | .bfree block => s.bfree g bpb block

def callAll (calls : List Call) : Space := calls.foldl (fun s c => s.call g bpb c) s

end Space

end Argentum.Agfs
