/-
# Agfs.Superblock — two copies, one sequence number

Block 0 of a volume holds the superblock twice: copy A at offset 512 and copy B at
offset 0. Every superblock write (`agfs_sb_dual_stamp`) puts one struct, one fresh
sequence number and one checksum in both sectors; the mount
(`agfs_read_superblock`) takes the valid copy with the highest sequence.

The struct is the 0x84 bytes the checksum covers, kept as the 33 little-endian words
that its loop reads.

The scan of the mount keeps the best sequence in a 32-bit variable while the stamps
are 64-bit. So the mount takes the newest copy except when copy B's number falls
strictly between copy A's number and its low 32 bits (`mountsNewest_iff`). A single
torn write is harmless all the same (`torn_mount`).
-/
import Mathlib.Data.Fintype.Pi
import Mathlib.Algebra.GroupWithZero.Nat

namespace Argentum.Agfs.Superblock

/-! ## The sectors -/

/-- Bytes `[0, AGFS_SB_SEQ_OFF)` of a copy, as the words the checksum adds up. -/
abbrev Words := Fin 33 → UInt32

/-- Literals are word indices. -/
instance instNeZeroWords : NeZero 33 := ⟨by decide⟩

def SUPER_MAGIC1 : UInt32 := 0x41474653
def SUPER_MAGIC2 : UInt32 := 0xdd121031
def SUPER_MAGIC3 : UInt32 := 0x15b6830e

/-- One 512-byte copy: the struct, the sequence at `AGFS_SB_SEQ_OFF` and the
checksum at `AGFS_SB_CKSUM_OFF`. The stamp zeroes the rest and nothing reads it. -/
structure SbCopy where
  words : Words
  seq : UInt64
  cksum : UInt32
  deriving DecidableEq

inductive Slot where
  | a
  | b
  deriving DecidableEq

/-- The two sectors of block 0. -/
structure Block0 where
  a : SbCopy
  b : SbCopy
  deriving DecidableEq

namespace Block0

def copy (blk : Block0) : Slot → SbCopy
  | .a => blk.a
  | .b => blk.b

/-- Replace one sector only: what a write torn between its two sectors leaves. -/
def set (blk : Block0) (slot : Slot) (c : SbCopy) : Block0 :=
  match slot with
  | .a => { blk with a := c }
  | .b => { blk with b := c }

end Block0

/-- `magic1`, `magic2` and `magic3` at 0x20, 0x44 and 0x70. -/
def magicsMatch (w : Words) : Bool :=
  w 8 == SUPER_MAGIC1 && w 17 == SUPER_MAGIC2 && w 28 == SUPER_MAGIC3

/-- `for(j = 0; j < AGFS_SB_SEQ_OFF; j += 4) cksum += *(__u32 *)(area + j)`. -/
def cksumOf (w : Words) : UInt32 :=
  (List.finRange 33).foldl (fun acc j => acc + w j) 0

/-- A copy is valid when its magics match and, in the new format (`seq != 0`),
the checksum does too. -/
def SbCopy.Valid (c : SbCopy) : Prop :=
  magicsMatch c.words = true ∧ (c.seq ≠ 0 → cksumOf c.words = c.cksum)

instance (c : SbCopy) : Decidable c.Valid :=
  inferInstanceAs (Decidable (_ ∧ _))

/-! ## The mount -/

/-- The scan's locals: `__u32 best_seq` and `int best` (`none` is `-1`). -/
structure Scan where
  bestSeq : UInt32
  best : Option Slot
  deriving DecidableEq

variable (slot : Slot) (s : Scan)

/-- One iteration of the scan in `agfs_read_superblock`. -/
def scanCopy (c : SbCopy) (s : Scan) : Scan :=
  if magicsMatch c.words = false then s
  else if c.seq = 0 then
    -- pre-dual-copy format: no checksum, taken only when nothing was found yet
    { s with best := s.best.or (some slot) }
  else if cksumOf c.words ≠ c.cksum then s
  else if s.bestSeq.toUInt64 < c.seq then
    -- the u64 sequence is stored back into the u32
    { bestSeq := c.seq.toUInt32, best := some slot }
  else s

def scan (blk : Block0) : Scan :=
  scanCopy .b blk.b (scanCopy .a blk.a { bestSeq := 0, best := none })

def EINVAL : Int := 22

/-- What the mount carries on with: the superblock buffer, whose copy A it
reads every field from, and the in-memory `sb_seq`. -/
structure Mounted where
  block0 : Block0
  sbSeq : UInt64
  deriving DecidableEq

/-- `agfs_read_superblock` up to the geometry checks: scan both copies, mirror
copy B over copy A when B won, then refuse an unsupported block size. -/
def readSuperblock (blk : Block0) : Except Int Mounted :=
  let s := scan blk
  match s.best with
  | none => .error (-EINVAL)
  | some slot =>
    let blk' := blk.set .a (blk.copy slot)
    let blockSize := blk'.a.words 10
    let inodeSize := blk'.a.words 16
    if blockSize < 1024 ∨ 4096 < blockSize ∨ blockSize &&& (blockSize - 1) ≠ 0 then
      .error (-EINVAL)
    else if inodeSize ≠ blockSize then .error (-EINVAL)
    else .ok { block0 := blk', sbSeq := s.bestSeq.toUInt64 }

/-- The mount takes the copy in `slot`: the scan chose it, and a mount that gets
past the geometry checks reads every field from it. -/
def Takes (blk : Block0) (slot : Slot) : Prop :=
  (scan blk).best = some slot ∧ ∀ m, readSuperblock blk = .ok m → m.block0.a = blk.copy slot

variable {blk : Block0} {c : SbCopy}

theorem takes_of_best {slot : Slot} (chosen : (scan blk).best = some slot) : Takes blk slot := by
  refine ⟨chosen, fun m mounted => ?_⟩
  unfold readSuperblock at mounted
  simp only [chosen] at mounted
  split at mounted
  · cases mounted
  split at mounted
  · cases mounted
  · cases mounted
    rfl

/-- The mount takes a valid copy at least as new as every valid copy. -/
def MountsNewest (blk : Block0) : Prop :=
  ∀ slot, (blk.copy slot).Valid →
    ∃ taken, Takes blk taken ∧ (blk.copy taken).Valid ∧ (blk.copy slot).seq ≤ (blk.copy taken).seq

/-- The pairs the 32-bit `best_seq` misjudges. -/
def Misjudged (blk : Block0) : Prop :=
  blk.a.Valid ∧ blk.b.Valid ∧ blk.a.seq.toUInt32.toUInt64 < blk.b.seq ∧ blk.b.seq < blk.a.seq

theorem scanCopy_invalid (invalid : ¬ c.Valid) : scanCopy slot c s = s := by
  unfold SbCopy.Valid at invalid
  unfold scanCopy
  split
  · rfl
  · rename_i magics
    have bad : c.seq ≠ 0 ∧ cksumOf c.words ≠ c.cksum := by simpa [magics] using invalid
    rw [if_neg bad.1, if_pos bad.2]

theorem scanCopy_old (valid : c.Valid) (old : c.seq = 0) :
    scanCopy slot c s = { s with best := s.best.or (some slot) } := by
  simp [scanCopy, valid.1, old]

theorem scanCopy_new (valid : c.Valid) (new : c.seq ≠ 0) : scanCopy slot c s =
      if s.bestSeq.toUInt64 < c.seq then { bestSeq := c.seq.toUInt32, best := some slot } else s := by
  simp [scanCopy, valid.1, new, valid.2 new]

/-- What one look at copy A leaves: nothing when it is invalid, and otherwise
copy A with the low 32 bits of its number. -/
theorem scanCopy_first (c : SbCopy) :
    scanCopy .a c { bestSeq := 0, best := none } =
      if c.Valid then { bestSeq := c.seq.toUInt32, best := some .a }
      else { bestSeq := 0, best := none } := by
  by_cases valid : c.Valid
  · rw [if_pos valid]
    by_cases old : c.seq = 0
    · rw [scanCopy_old _ _ valid old, old]
      rfl
    · have positive : (0 : UInt32).toUInt64 < c.seq := by
        exact Nat.pos_of_ne_zero fun zero => old (UInt64.toNat_inj.mp zero)
      rw [scanCopy_new _ _ valid old, if_pos positive]
  · rw [if_neg valid, scanCopy_invalid _ _ valid]

/-- Copy B wins exactly when it is valid and either copy A is not, or B's number
exceeds the low 32 bits of A's. -/
theorem scan_best (blk : Block0) :
    (scan blk).best =
      if blk.b.Valid ∧ (blk.a.Valid → blk.a.seq.toUInt32.toUInt64 < blk.b.seq) then some .b
      else if blk.a.Valid then some .a else none := by
  unfold scan
  rw [scanCopy_first]
  by_cases validA : blk.a.Valid <;> by_cases validB : blk.b.Valid
  · by_cases old : blk.b.seq = 0
    · simp [validA, validB, scanCopy_old, old]
    · simp only [validA, validB, if_true, scanCopy_new _ _ validB old, true_and, forall_const]
      split <;> rfl
  · simp [validA, validB, scanCopy_invalid]
  · by_cases old : blk.b.seq = 0
    · simp [validA, validB, scanCopy_old, old]
    have positive : (0 : UInt32).toUInt64 < blk.b.seq := by
      exact Nat.pos_of_ne_zero fun zero => old (UInt64.toNat_inj.mp zero)
    simp only [validA, validB, if_false, scanCopy_new _ _ validB old, if_pos positive]
    simp
  · simp [validA, validB, scanCopy_invalid]

theorem low_le (x : UInt64) : x.toUInt32.toUInt64 ≤ x := by
  rw [UInt64.le_iff_toNat_le]
  simpa using Nat.mod_le x.toNat 4294967296

/-- The mount takes the newest valid copy, except for the misjudged pairs. -/
theorem mountsNewest_of_not_misjudged (fine : ¬ Misjudged blk) : MountsNewest blk := by
  intro slot valid
  have best := scan_best blk
  by_cases takesB : blk.b.Valid ∧ (blk.a.Valid → blk.a.seq.toUInt32.toUInt64 < blk.b.seq)
  · rw [if_pos takesB] at best
    refine ⟨.b, takes_of_best best, takesB.1, ?_⟩
    cases slot with
    | b => exact UInt64.le_refl _
    | a =>
      by_contra older
      exact fine ⟨valid, takesB.1, takesB.2 valid, UInt64.not_le.mp older⟩
  · rw [if_neg takesB] at best
    have validA : blk.a.Valid := by
      cases slot with
      | a => exact valid
      | b => by_contra invalidA; exact takesB ⟨valid, fun h => absurd h invalidA⟩
    rw [if_pos validA] at best
    refine ⟨.a, takes_of_best best, validA, ?_⟩
    cases slot with
    | a => exact UInt64.le_refl _
    | b =>
      have notLess : ¬ blk.a.seq.toUInt32.toUInt64 < blk.b.seq := fun less =>
        takesB ⟨valid, fun _ => less⟩
      exact UInt64.le_trans (UInt64.not_lt.mp notLess) (low_le _)

theorem not_mountsNewest_of_misjudged (misjudged : Misjudged blk) : ¬ MountsNewest blk := by
  obtain ⟨validA, validB, above, below⟩ := misjudged
  intro newest
  obtain ⟨taken, ⟨best, -⟩, -, newer⟩ := newest .a validA
  rw [scan_best, if_pos ⟨validB, fun _ => above⟩] at best
  cases best
  exact absurd below (UInt64.not_lt.mpr newer)

/-! ## Stamped writes -/

/-- The two writers of the copy-A struct: `agfs_log_write_super` touches the log
fields only, `agfs_write_superblock` rebuilds everything but the volume name. -/
inductive SbWrite where
  | logSuper (flags : UInt32) (logBlocks logStart logEnd : UInt32 × UInt32)
  | rebuild (fields : Words)

def SbWrite.fill (w : Words) : SbWrite → Words
  | .logSuper flags logBlocks logStart logEnd => fun j =>
    if j = 21 then flags
    else if j = 22 then logBlocks.1 else if j = 23 then logBlocks.2
    else if j = 24 then logStart.1 else if j = 25 then logStart.2
    else if j = 26 then logEnd.1 else if j = 27 then logEnd.2
    else w j
  | .rebuild fields => fun j =>
    if j < 8 then w j
    else if j = 8 then SUPER_MAGIC1 else if j = 17 then SUPER_MAGIC2
    else if j = 28 then SUPER_MAGIC3
    else fields j

/-- The copy `agfs_sb_dual_stamp` puts in both sectors: the struct the caller
left in copy A, the next sequence number and the struct's checksum. -/
def stampCopy (sbSeq : UInt64) (w : Words) : SbCopy :=
  { words := w, seq := sbSeq + 1, cksum := cksumOf w }

/-- A mounted volume as the superblock writer sees it. -/
structure Volume where
  disk : Block0
  sbSeq : UInt64
  deriving DecidableEq

/-- The stamped copy of the next superblock write. -/
def Volume.next (v : Volume) (op : SbWrite) : SbCopy :=
  stampCopy v.sbSeq (op.fill v.disk.a.words)

inductive Event where
  | write (op : SbWrite)
  | remount

/-- A write that reaches both sectors, or a crash-free remount, which reloads
`sb_seq` from the scan's 32-bit variable. -/
def Volume.step (v : Volume) : Event → Volume
  | .write op => { disk := { a := v.next op, b := v.next op }, sbSeq := v.sbSeq + 1 }
  | .remount => { v with sbSeq := (scan v.disk).bestSeq.toUInt64 }

def Volume.run (v : Volume) (events : List Event) : Volume := events.foldl Volume.step v

/-- Both sectors hold one valid copy: what `mkagfs` writes and what every
completed write leaves. -/
def Volume.Agree (v : Volume) : Prop := v.disk.a.Valid ∧ v.disk.b = v.disk.a

variable {v : Volume}

theorem fill_magics {w : Words} (magics : magicsMatch w = true) (op : SbWrite) :
    magicsMatch (op.fill w) = true := by
  cases op with
  | logSuper flags logBlocks logStart logEnd => simpa [magicsMatch, SbWrite.fill] using magics
  | rebuild fields => simp [magicsMatch, SbWrite.fill]

theorem next_valid (agree : v.Agree) (op : SbWrite) : (v.next op).Valid :=
  ⟨fill_magics agree.1.1 op, fun _ => rfl⟩

theorem step_agree (agree : v.Agree) (event : Event) : (v.step event).Agree := by
  cases event with
  | write op => exact ⟨next_valid agree op, rfl⟩
  | remount => exact agree

theorem run_agree (agree : v.Agree) (events : List Event) : (v.run events).Agree := by
  induction events generalizing v with
  | nil => exact agree
  | cons event rest ih => exact ih (step_agree agree event)

/-- A write torn after one of its two sectors leaves the copy before it and the
copy after it, both valid, so the mount recovers one of the two. -/
theorem torn_mount (agree : v.Agree) (op : SbWrite) (written : Slot) :
    ∃ slot, Takes (v.disk.set written (v.next op)) slot ∧
      ((v.disk.set written (v.next op)).copy slot = v.disk.a ∨
        (v.disk.set written (v.next op)).copy slot = v.next op) := by
  obtain ⟨valid, same⟩ := agree
  have validNext := next_valid ⟨valid, same⟩ op
  have validA : (v.disk.set written (v.next op)).a.Valid := by
    cases written with
    | a => exact validNext
    | b => exact valid
  have best := scan_best (v.disk.set written (v.next op))
  split at best
  · refine ⟨.b, takes_of_best best, ?_⟩
    cases written with
    | a => exact .inl same
    | b => exact .inr rfl
  · refine ⟨.a, takes_of_best best, ?_⟩
    cases written with
    | a => exact .inr rfl
    | b => exact .inl rfl

/-- **The dual superblock, exactly.** The mount takes the newest valid copy if and
only if the pair is not misjudged by the 32-bit comparison; and whatever the
sequence numbers, after any history of completed writes and remounts a last
write torn between its sectors leaves the superblock before it or after it. -/
theorem dual_superblock_mount (blk : Block0) :
    (MountsNewest blk ↔ ¬ Misjudged blk) ∧
      ∀ (v : Volume), v.Agree → ∀ (events : List Event) (op : SbWrite) (written : Slot),
        ∃ slot, Takes ((v.run events).disk.set written ((v.run events).next op)) slot ∧
          (((v.run events).disk.set written ((v.run events).next op)).copy slot =
              (v.run events).disk.a ∨
            ((v.run events).disk.set written ((v.run events).next op)).copy slot =
              (v.run events).next op) := by
  refine ⟨⟨fun newest misjudged => ?_, mountsNewest_of_not_misjudged⟩, ?_⟩
  · exact not_mountsNewest_of_misjudged misjudged newest
  · intro v agree events op written
    exact torn_mount (run_agree agree events) op written

/-! ## Poles -/

/-- The fields the mount checks: the three magics and 1024-byte blocks. -/
def plainWords : Words := fun j =>
  if j = 8 then SUPER_MAGIC1 else if j = 17 then SUPER_MAGIC2 else if j = 28 then SUPER_MAGIC3
  else if j = 10 then 1024 else if j = 16 then 1024 else 0

/-- A freshly made volume: sequence 1 in both sectors. -/
def freshVolume : Volume :=
  { disk := { a := stampCopy 0 plainWords, b := stampCopy 0 plainWords }, sbSeq := 1 }

theorem dual_superblock_mount_fresh :
    MountsNewest freshVolume.disk ∧
      ∃ slot, Takes (freshVolume.disk.set .a (freshVolume.next (.rebuild plainWords))) slot ∧
        ((freshVolume.disk.set .a (freshVolume.next (.rebuild plainWords))).copy slot =
            freshVolume.disk.a ∨
          (freshVolume.disk.set .a (freshVolume.next (.rebuild plainWords))).copy slot =
            freshVolume.next (.rebuild plainWords)) :=
  ⟨(dual_superblock_mount freshVolume.disk).1.mpr (fun h => absurd h.2.2.2 (by decide)),
    (dual_superblock_mount freshVolume.disk).2 freshVolume ⟨by decide, rfl⟩ []
      (.rebuild plainWords) .a⟩

/-- Copy A carries sequence `2 ^ 32`, copy B sequence 1. -/
def crossedBlock0 : Block0 :=
  { a := stampCopy 0xffffffff plainWords, b := stampCopy 0 plainWords }

/-- Refuting pole: the low 32 bits of copy A's number are 0, so the scan goes on
to prefer copy B, which is older by `2 ^ 32 - 1` writes. -/
theorem crossed_takes_older :
    crossedBlock0.a.Valid ∧ crossedBlock0.b.Valid ∧ crossedBlock0.b.seq < crossedBlock0.a.seq ∧
      (scan crossedBlock0).best = some .b ∧ ¬ MountsNewest crossedBlock0 :=
  ⟨by decide, by decide, by decide, by decide,
    not_mountsNewest_of_misjudged ⟨by decide, by decide, by decide, by decide⟩⟩

end Argentum.Agfs.Superblock
