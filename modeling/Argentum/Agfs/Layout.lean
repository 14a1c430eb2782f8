/-
# Agfs.Layout — block runs, the regions of a volume, and what a block can be read as

A volume is block 0 (the superblock), the bitmap blocks of all allocation groups
from block 1 on, the log extent, and everything else. A `Geometry` can only be built with the
log behind the bitmap and inside the volume.

Block numbers are `__blk_t`, 32 bits wide; a block run names its block by group
and offset (`agfs_log_run_abs`, `agfs_run_encode`), so the sum is taken modulo
`2 ^ 32` and every volume has at most `2 ^ 31` blocks.

`BlockFormat` relates raw blocks to what the journal keeps in them: a `run_array`, the
superblock's log range, a stretch of the free-space bitmap. Its laws are the round trips
of those writers and readers; what a block written by one of them reads as under another
is left open. `PlainBlock` is a small instance to evaluate the model on.
-/
import Mathlib.Data.List.Basic
import Mathlib.Data.Nat.Basic
import Mathlib.Algebra.Group.Nat.Defs

namespace Argentum.Agfs

/-- `struct agfs_block_run`. -/
structure BlockRun where
  allocationGroup : UInt32
  start : UInt16
  len : UInt16
  deriving DecidableEq

/-- `agfs_log_run_abs`: the absolute block of a run. -/
def runAbs (agShift : Nat) (run : BlockRun) : Nat :=
  (run.allocationGroup.toNat * 2 ^ agShift + run.start.toNat) % 2 ^ 32

/-- The run of length one the journal stores for a block. -/
def encodeRun (agShift : Nat) (block : Nat) : BlockRun :=
  { allocationGroup := UInt32.ofNat (block / 2 ^ agShift)
    start := UInt16.ofNat (block % 2 ^ agShift)
    len := 1 }

theorem runAbs_encodeRun {agShift block : Nat} (shift : agShift ≤ 16) (small : block < 2 ^ 31) :
    runAbs agShift (encodeRun agShift block) = block := by
  have group : block / 2 ^ agShift < 2 ^ 32 :=
    lt_of_le_of_lt (Nat.div_le_self _ _) (by omega)
  have offset : block % 2 ^ agShift < 2 ^ 16 :=
    lt_of_lt_of_le (Nat.mod_lt _ (Nat.two_pow_pos _)) (Nat.pow_le_pow_right (by decide) shift)
  have whole : block / 2 ^ agShift * 2 ^ agShift + block % 2 ^ agShift = block := by
    rw [Nat.mul_comm]
    exact Nat.div_add_mod _ _
  simp only [runAbs, encodeRun, UInt32.toNat_ofNat', UInt16.toNat_ofNat', Nat.mod_eq_of_lt group,
    Nat.mod_eq_of_lt offset, whole]
  exact Nat.mod_eq_of_lt (by omega)

/-- Where the parts of a mounted volume lie. -/
structure Geometry where
  agShift : Nat
  numBlocks : Nat
  numAgs : Nat
  /-- Bitmap blocks to an allocation group. -/
  blocksPerAg : Nat
  /-- The log extent, `sb->u.agfs.log_blocks`. -/
  logBlocks : BlockRun
  shift_le : agShift ≤ 16
  numBlocks_le : numBlocks ≤ 2 ^ 31
  bitmap_below_log : 1 + numAgs * blocksPerAg ≤ runAbs agShift logBlocks
  log_inside : runAbs agShift logBlocks + logBlocks.len.toNat ≤ numBlocks

namespace Geometry

variable (g : Geometry) {p : Nat} {b : Nat}

/-- `sb->u.agfs.bitmap_blocks`. -/
def bitmapBlocks : Nat := g.numAgs * g.blocksPerAg

/-- `agfs_log_len`. -/
def logLen : Nat := g.logBlocks.len.toNat

/-- `agfs_log_block`: the block at log position `pos`. -/
def logBlock (pos : Nat) : Nat := runAbs g.agShift g.logBlocks + pos

/-- A block that is neither superblock, bitmap nor log: what transactions record. -/
def IsMeta (b : Nat) : Prop :=
  1 + g.bitmapBlocks ≤ b ∧ b < g.numBlocks ∧ (b < g.logBlock 0 ∨ g.logBlock g.logLen ≤ b)

instance (b : Nat) : Decidable (g.IsMeta b) := by unfold IsMeta; infer_instance

theorem logLen_lt : g.logLen < 2 ^ 16 := g.logBlocks.len.toNat_lt

theorem logBlock_inj {q : Nat} : g.logBlock p = g.logBlock q ↔ p = q := by
  simp [logBlock]

theorem logBlock_add (p q : Nat) : g.logBlock (p + q) = g.logBlock p + q := by
  simp [logBlock, Nat.add_assoc]

theorem logBlock_ge (p : Nat) : 1 + g.bitmapBlocks ≤ g.logBlock p := by
  have := g.bitmap_below_log
  simp only [logBlock, bitmapBlocks]
  omega

theorem logBlock_not_meta (inside : p < g.logLen) : ¬ g.IsMeta (g.logBlock p) := by
  intro isMeta
  have := isMeta.2.2
  simp only [logBlock] at this
  omega

theorem meta_ne_logBlock (isMeta : g.IsMeta b) (inside : p < g.logLen) : b ≠ g.logBlock p := by
  rintro rfl
  exact g.logBlock_not_meta inside isMeta

theorem meta_encode (isMeta : g.IsMeta b) : runAbs g.agShift (encodeRun g.agShift b) = b :=
  runAbs_encodeRun g.shift_le (lt_of_lt_of_le isMeta.2.1 g.numBlocks_le)

end Geometry

/-- `AGFS_LOG_MAX_BLOCKS`: the most blocks one transaction records. -/
def logMaxBlocks : Nat := 48

/-- `AGFS_LOG_MAX_RUNS`: the capacity of a `run_array`. -/
def logMaxRuns : Nat := 127

/-- `AGFS_LOG_BATCH_BLOCKS`: the batch is closed at this many log blocks. -/
def logBatchBlocks : Nat := 96

/-- The superblock's `flags`. -/
inductive SuperFlags where
  | clean
  | dirty
  deriving DecidableEq

/-- What a raw block is read as and written from. -/
class BlockFormat (D : Type) where
  /-- `run_array.count`. -/
  count : D → Int
  /-- `run_array.max_runs`. -/
  maxRuns : D → Int
  /-- `run_array.runs[i]`. -/
  run : D → Nat → BlockRun
  /-- A zeroed block given a count, the capacity and its runs. -/
  runArray : List BlockRun → D
  /-- `log_start` of the superblock a mount takes from block 0. -/
  logStart : D → Nat
  logEnd : D → Nat
  flags : D → SuperFlags
  usedBlocks : D → UInt64
  /-- Block 0 with a new log range and flags, both copies stamped. -/
  setLog : D → Nat → Nat → SuperFlags → D
  /-- Bits held by one bitmap block: `block_size * 8`. -/
  bitsPerBlock : Nat
  bit : D → Nat → Bool
  bits : (Nat → Bool) → D
  count_runArray : ∀ rs, rs.length ≤ logMaxRuns → count (runArray rs) = rs.length
  maxRuns_runArray : ∀ rs, maxRuns (runArray rs) = logMaxRuns
  run_runArray : ∀ rs i r, rs.length ≤ logMaxRuns → rs[i]? = some r → run (runArray rs) i = r
  logStart_setLog : ∀ d s e f, s < 2 ^ 64 → logStart (setLog d s e f) = s
  logEnd_setLog : ∀ d s e f, e < 2 ^ 64 → logEnd (setLog d s e f) = e
  flags_setLog : ∀ d s e f, flags (setLog d s e f) = f
  bitsPerBlock_pos : 0 < bitsPerBlock
  bit_bits : ∀ f i, i < bitsPerBlock → bit (bits f) i = f i

/-- Blocks that remember what they were written as: 128 bits to a bitmap block, log
positions of any size. -/
inductive PlainBlock where
  | data (n : Nat)
  | runs (rs : List BlockRun)
  | super (logStart logEnd : Nat) (flags : SuperFlags)
  | bitmap (bits : List Bool)
  deriving DecidableEq

instance : BlockFormat PlainBlock where
  count
    | .runs rs => rs.length
    | _ => 0
  maxRuns
    | .runs _ => logMaxRuns
    | _ => 0
  run
    | .runs rs, i => rs.getD i ⟨0, 0, 0⟩
    | _, _ => ⟨0, 0, 0⟩
  runArray := .runs
  logStart
    | .super s _ _ => s
    | _ => 0
  logEnd
    | .super _ e _ => e
    | _ => 0
  flags
    | .super _ _ f => f
    | _ => .clean
  usedBlocks _ := 0
  setLog _ s e f := .super s e f
  bitsPerBlock := 128
  bit
    | .bitmap bits, i => bits.getD i false
    | _, _ => false
  bits f := .bitmap ((List.range 128).map f)
  count_runArray _ _ := rfl
  maxRuns_runArray _ := rfl
  run_runArray rs i r _ found := by simp [List.getD, found]
  logStart_setLog _ _ _ _ _ := rfl
  logEnd_setLog _ _ _ _ _ := rfl
  flags_setLog _ _ _ _ := rfl
  bitsPerBlock_pos := by decide
  bit_bits f i small := by simp [List.getD, small]

/-- A volume with one bitmap block and a log of 49 blocks, the least that takes every
transaction. -/
def smallGeometry : Geometry where
  agShift := 16
  numBlocks := 100
  numAgs := 1
  blocksPerAg := 1
  logBlocks := { allocationGroup := 0, start := 2, len := 49 }
  shift_le := by decide
  numBlocks_le := by decide
  bitmap_below_log := by decide
  log_inside := by decide

theorem smallGeometry_meta51 : smallGeometry.IsMeta 51 := by decide

theorem smallGeometry_meta52 : smallGeometry.IsMeta 52 := by decide

/-- The same volume as it is made. -/
def blankDisk : Nat → PlainBlock := fun b => if b = 0 then .super 0 0 .clean else .data 0

end Argentum.Agfs
