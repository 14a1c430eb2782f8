/-
# Agfs.Journal — transactions, the pending batch and its flush

The write side of `fs/agfs/journal.c` over the buffer cache of `Fs.Buffer`.

A transaction collects new block contents in `tx` (`agfs_log_record`); the
outermost commit puts them in the log as one entry — a `run_array` block, then
the contents — and in the cache, all of it dirty and none of it synced. The
entries between two flushes are the pending batch. `flushLocked` makes the batch
durable in three passes over the cache:

* A: the batch's log blocks;
* B: the superblock that publishes the range, then the bitmap;
* C: everything still on the dirty list.

`Sb` holds the fields of `sb->u.agfs` used here and the device; `kmalloc` is an argument.
-/
import Argentum.Fs.BufferState
import Argentum.Agfs.Balloc

namespace Argentum.Agfs

open Lib.WriteLog Fs Dev

/-- The journal's part of a mounted superblock. -/
structure Sb (D : Type) where
  logStart : Nat
  logEnd : Nat
  logPending : Bool
  logPendBlocks : Nat
  /-- `tx_blocks` with `tx_data`, in recording order. -/
  tx : Writes D
  txDepth : Nat
  txPoisoned : Bool
  logDraining : Bool
  flags : SuperFlags
  space : Space
  dev : Dev D

section Entries

variable {D : Type} (g : Geometry)

/-- Contents laid out in consecutive log blocks from `pos` on. -/
def blocksFrom : Nat → List D → Writes D
  | _, [] => []
  | pos, d :: ds => (g.logBlock pos, d) :: blocksFrom (pos + 1) ds

/-- One log entry: the `run_array` of the recorded blocks, then their contents. -/
def entryImage [BlockFormat D] (entry : Writes D) : List D :=
  BlockFormat.runArray (entry.map fun w => encodeRun g.agShift w.1) :: entry.map Prod.snd

/-- The log image of a list of entries. -/
def batchImage [BlockFormat D] (es : Entries D) : List D := es.flatMap (entryImage g)

end Entries

namespace Sb

variable {D : Type} (g : Geometry) [BlockFormat D] (sb : Sb D)

/-- `agfs_log_begin`; its lock is the subject of `Agfs.TxIsolation`. -/
def logBegin : Sb D :=
  { sb with
    tx := if sb.txDepth = 0 then [] else sb.tx
    txDepth := sb.txDepth + 1 }

/-- `agfs_log_record`. -/
def logRecord (blk : Nat) (data : D) (kmallocs : Bool) : Except Errno (Sb D) :=
  if sb.txDepth = 0 then .ok sb
  else if blk ∈ keys sb.tx then .ok { sb with tx := record sb.tx (blk, data) }
  else if logMaxBlocks ≤ sb.tx.length then .error .enospc
  else if kmallocs then .ok { sb with tx := record sb.tx (blk, data) }
  else .error .enomem

/-- `agfs_log_free_tx`. -/
def freeTx : Sb D := { sb with tx := [] }

/-- The overflow path of `agfs_log_write_block`: write the recorded blocks through,
but for the one the caller holds and those some caller has locked. -/
def writeThrough (blk : Nat) : Dev D :=
  sb.tx.foldl
    (fun dev w => if w.1 = blk ∨ dev.bufferLocked w.1 then dev else dev.store w.1 w.2) sb.dev

/-- `agfs_log_write_block` on the buffer of `blk`, which the caller holds. -/
def logWriteBlock (blk : Nat) (kmallocs : Bool) : Sb D :=
  if sb.logDraining then { sb with dev := sb.dev.bwrite blk }
  else if 0 < sb.txDepth ∧ sb.txPoisoned = false then
    match sb.logRecord blk (sb.dev.peek blk) kmallocs with
    | .ok sb' => { sb' with dev := sb.dev.brelse blk }
    | .error _ =>
      { sb.freeTx with txPoisoned := true, dev := (sb.writeThrough blk).bwrite blk }
  else { sb with dev := sb.dev.bwrite blk }

/-- A caller's whole update of one block: read it, change it, hand it over. -/
def update (w : Nat × D) (kmallocs : Bool) : Sb D :=
  ({ sb with dev := (sb.dev.bread w.1).modify w.1 w.2 } : Sb D).logWriteBlock w.1 kmallocs

/-- A list of updates, each with whether `kmalloc` has memory for a new copy. -/
def updateAll (us : List ((Nat × D) × Bool)) : Sb D :=
  us.foldl (fun sb u => sb.update u.1 u.2) sb

/-- Calls of the allocator, which work on the cached bitmap only. -/
def allocate (calls : List Space.Call) : Sb D :=
  { sb with space := sb.space.callAll g (BlockFormat.bitsPerBlock D) calls }

/-- The bitmap blocks as the cached bitmap has them. -/
def bitmapImage : Writes D :=
  (List.range g.bitmapBlocks).map fun i =>
    (1 + i, BlockFormat.bits fun j => sb.space.bitmap (i * BlockFormat.bitsPerBlock D + j))

/-- `agfs_log_write_bitmap`. -/
def logWriteBitmap : Sb D := { sb with dev := sb.dev.storeAll (sb.bitmapImage g) }

/-- Block 0 with the current log range and flags. -/
def superImage : D := BlockFormat.setLog (sb.dev.peek 0) sb.logStart sb.logEnd sb.flags

/-- `agfs_log_write_super`: with `flush` the write is followed by a full sync. -/
def logWriteSuper (flush : Bool) : Sb D :=
  let dev := sb.dev.store 0 sb.superImage
  { sb with dev := if flush then dev.syncBuffers else dev }

/-- `agfs_log_flush_locked`. -/
def flushLocked : Sb D :=
  if sb.logPending then
    -- phase A: the batch's entries
    let sb := { sb with dev := sb.dev.syncSelect (g.logBlock sb.logStart) sb.logPendBlocks }
    -- phase B: bitmap and published superblock
    let sb := (({ sb with flags := .dirty } : Sb D).logWriteBitmap g).logWriteSuper false
    let sb := { sb with dev := sb.dev.syncSelect 0 (1 + g.bitmapBlocks) }
    -- phase C: the real blocks
    { sb with dev := sb.dev.syncBuffers, logPending := false, logPendBlocks := 0 }
  else sb

/-- `agfs_log_flush`. -/
def logFlush : Sb D := sb.flushLocked g

/-- `agfs_log_sync`. -/
def logSync : Sb D := { sb.logFlush g with dev := (sb.logFlush g).dev.syncBuffers }

/-- The wrap: publish the empty log before position 0 is used again. -/
def wrap : Sb D := ({ sb with logStart := 0, logEnd := 0 } : Sb D).logWriteSuper true

/-- The commit's make-room loop. A flush moves neither `log_end` nor the log's
length, so the loop takes at most one flush and then wraps. -/
def makeRoom (n : Nat) : Sb D :=
  if sb.logEnd + n + 1 ≤ g.logLen then sb else (sb.flushLocked g).wrap

/-- Close a batch that this entry would take over the cap. -/
def capBatch (n : Nat) : Sb D :=
  if sb.logPending ∧ logBatchBlocks < sb.logPendBlocks + n + 1 then sb.flushLocked g else sb

/-- Write the entry to the log and its blocks to the cache, all unsynced. -/
def appendEntry : Sb D :=
  { sb with
    logStart := if sb.logPending then sb.logStart else sb.logEnd
    logPending := true
    dev := (sb.dev.storeAll (blocksFrom g sb.logEnd (entryImage g sb.tx))).storeAll sb.tx
    logEnd := sb.logEnd + sb.tx.length + 1
    logPendBlocks := sb.logPendBlocks + sb.tx.length + 1 }

/-- Close a batch that reached the cap. -/
def closeBatch : Sb D := if logBatchBlocks ≤ sb.logPendBlocks then sb.flushLocked g else sb

/-- Bitmap and superblock written with a full sync behind them. -/
def publishThrough : Sb D :=
  (({ sb with flags := .dirty } : Sb D).logWriteBitmap g).logWriteSuper true

/-- The commit of a transaction that does not fit in the log at all. -/
def commitThrough : Sb D :=
  let sb := sb.publishThrough g
  { sb with dev := (sb.dev.storeAll sb.tx).syncBuffers }

/-- The commit of a transaction that fits. -/
def commitLogged : Sb D :=
  let n := sb.tx.length
  ((((sb.makeRoom g n).capBatch g n).appendEntry g).closeBatch g).freeTx

/-- What `agfs_log_commit` does at the outermost level, up to the unlock. -/
def commitOutermost : Sb D :=
  if sb.txPoisoned then ({ sb with txPoisoned := false } : Sb D).freeTx
  else if sb.tx.isEmpty then sb.freeTx
  else if g.logLen < sb.tx.length + 1 then (sb.commitThrough g).freeTx
  else sb.commitLogged g

/-- `agfs_log_commit`. -/
def logCommit : Sb D :=
  if sb.txDepth = 0 then sb
  else if 1 < sb.txDepth then { sb with txDepth := sb.txDepth - 1 }
  else ({ sb with txDepth := 0 } : Sb D).commitOutermost g

/-- A whole transaction: begin, one update for each write, commit. -/
def transact (ws : Writes D) : Sb D :=
  (ws.foldl (fun sb w => sb.update w true) sb.logBegin).logCommit g

end Sb

/-! ## Recording -/

namespace Sb

variable {D : Type} {sb : Sb D} {ws : Writes D}

/-- No transaction is open and none of the write-through modes is on. -/
structure Quiet (sb : Sb D) : Prop where
  depth : sb.txDepth = 0
  tx : sb.tx = []
  poisoned : sb.txPoisoned = false
  draining : sb.logDraining = false

theorem Quiet.rest {sb : Sb D} (quiet : sb.Quiet) {logStart logEnd logPendBlocks : Nat}
    {logPending : Bool} {flags : SuperFlags} {space : Space} {dev : Dev D} :
    Quiet { sb with
      logStart := logStart, logEnd := logEnd, logPending := logPending
      logPendBlocks := logPendBlocks, flags := flags, space := space, dev := dev } :=
  ⟨quiet.depth, quiet.tx, quiet.poisoned, quiet.draining⟩

/-- The transaction fits behind the log. -/
abbrev Room (g : Geometry) (sb : Sb D) : Prop := sb.logEnd + sb.tx.length + 1 ≤ g.logLen

/-- A transaction is open and records what it is handed. -/
structure Recording (sb : Sb D) : Prop where
  depth : 0 < sb.txDepth
  poisoned : sb.txPoisoned = false
  draining : sb.logDraining = false

/-- `sb` with the buffer of `w` changed, as `agfs_log_write_block` finds it. -/
def holding (sb : Sb D) (w : Nat × D) : Sb D :=
  { sb with dev := (sb.dev.bread w.1).modify w.1 w.2 }

theorem holding_peek (w : Nat × D) : (sb.holding w).dev.peek = put sb.dev.peek w :=
  bread_modify_peek sb.dev w.1 w.2

theorem logRecord_cases (depth : 0 < sb.txDepth) (w : Nat × D) (kmallocs : Bool) :
    ((w.1 ∈ keys sb.tx ∨ sb.tx.length < logMaxBlocks ∧ kmallocs = true) ∧
      sb.logRecord w.1 w.2 kmallocs = .ok { sb with tx := record sb.tx w }) ∨
    ((w.1 ∉ keys sb.tx ∧ (logMaxBlocks ≤ sb.tx.length ∨ kmallocs = false)) ∧
      ∃ e, sb.logRecord w.1 w.2 kmallocs = .error e) := by
  have opened := Nat.ne_of_gt depth
  unfold logRecord
  rw [if_neg opened]
  by_cases present : w.1 ∈ keys sb.tx
  · rw [if_pos present]
    exact .inl ⟨.inl present, rfl⟩
  rw [if_neg present]
  by_cases full : logMaxBlocks ≤ sb.tx.length
  · rw [if_pos full]
    exact .inr ⟨⟨present, .inl full⟩, _, rfl⟩
  · rw [if_neg full]
    cases kmallocs with
    | false => exact .inr ⟨⟨present, .inr rfl⟩, _, rfl⟩
    | true => exact .inl ⟨.inr ⟨Nat.lt_of_not_le full, rfl⟩, rfl⟩

/-- The three ways of `agfs_log_write_block`: a plain write outside a transaction or in
a poisoned one, a record, an overflow that poisons. -/
theorem logWriteBlock_cases (draining : sb.logDraining = false) (blk : Nat) (kmallocs : Bool) :
    ((sb.txDepth = 0 ∨ sb.txPoisoned = true) ∧
      sb.logWriteBlock blk kmallocs = { sb with dev := sb.dev.bwrite blk }) ∨
    ((0 < sb.txDepth ∧ sb.txPoisoned = false) ∧
      (blk ∈ keys sb.tx ∨ sb.tx.length < logMaxBlocks ∧ kmallocs = true) ∧
      sb.logWriteBlock blk kmallocs =
        { sb with tx := record sb.tx (blk, sb.dev.peek blk), dev := sb.dev.brelse blk }) ∨
    ((0 < sb.txDepth ∧ sb.txPoisoned = false) ∧
      (blk ∉ keys sb.tx ∧ (logMaxBlocks ≤ sb.tx.length ∨ kmallocs = false)) ∧
      sb.logWriteBlock blk kmallocs =
        { sb.freeTx with txPoisoned := true, dev := (sb.writeThrough blk).bwrite blk }) := by
  have active : ¬ sb.logDraining = true := by simp [draining]
  rw [logWriteBlock, if_neg active]
  by_cases recording : 0 < sb.txDepth ∧ sb.txPoisoned = false
  · rw [if_pos recording]
    obtain ⟨fits, done⟩ | ⟨overrun, e, failed⟩ :=
      logRecord_cases recording.1 (blk, sb.dev.peek blk) kmallocs
    · rw [done]
      exact .inr (.inl ⟨recording, fits, rfl⟩)
    · rw [failed]
      exact .inr (.inr ⟨recording, overrun, rfl⟩)
  · rw [if_neg recording]
    refine .inl ⟨?_, rfl⟩
    rw [not_and_or, Nat.not_lt, Nat.le_zero, Bool.not_eq_false] at recording
    exact recording

/-- The three things an update inside a transaction can come to. -/
theorem update_cases (depth : 0 < sb.txDepth) (draining : sb.logDraining = false) (w : Nat × D)
    (kmallocs : Bool) :
    (sb.txPoisoned = true ∧ sb.update w kmallocs = { sb with dev := sb.dev.store w.1 w.2 }) ∨
    (sb.txPoisoned = false ∧ (w.1 ∈ keys sb.tx ∨ sb.tx.length < logMaxBlocks ∧ kmallocs = true) ∧
      sb.update w kmallocs = { sb with tx := record sb.tx w, dev := sb.dev.touch w }) ∨
    (sb.txPoisoned = false ∧
      (w.1 ∉ keys sb.tx ∧ (logMaxBlocks ≤ sb.tx.length ∨ kmallocs = false)) ∧
      sb.update w kmallocs =
        { sb.freeTx with
          txPoisoned := true
          dev := ((sb.holding w).writeThrough w.1).bwrite w.1 }) := by
  have active : (sb.holding w).logDraining = false := draining
  rw [show sb.update w kmallocs = (sb.holding w).logWriteBlock w.1 kmallocs from rfl]
  obtain ⟨plain, done⟩ | ⟨recording, fits, done⟩ | ⟨recording, overrun, done⟩ :=
    logWriteBlock_cases active w.1 kmallocs <;> rw [done]
  · exact .inl ⟨plain.resolve_left (Nat.ne_of_gt depth), rfl⟩
  · rw [holding_peek, put_same]
    exact .inr (.inl ⟨recording.2, fits, rfl⟩)
  · exact .inr (.inr ⟨recording.2, overrun, rfl⟩)

theorem update_modes (depth : 0 < sb.txDepth) (draining : sb.logDraining = false) (w : Nat × D)
    (kmallocs : Bool) : (sb.update w kmallocs).txDepth = sb.txDepth ∧
      (sb.update w kmallocs).logDraining = sb.logDraining := by
  obtain ⟨_, shape⟩ | ⟨_, _, shape⟩ | ⟨_, _, shape⟩ := update_cases depth draining w kmallocs <;>
    rw [shape] <;> exact ⟨rfl, rfl⟩

theorem update_eq (recording : sb.Recording) {w : Nat × D}
    (fits : (record sb.tx w).length ≤ logMaxBlocks) :
    sb.update w true = { sb with tx := record sb.tx w, dev := sb.dev.touch w } := by
  obtain ⟨poisoned, _⟩ | ⟨_, _, done⟩ | ⟨_, ⟨absent, full | refused⟩, _⟩ :=
    update_cases recording.depth recording.draining w true
  · exact absurd (recording.poisoned.symm.trans poisoned) (by decide)
  · exact done
  · rw [record_length_of_not_mem absent] at fits
    omega
  · cases refused

/-- The state an outermost commit works on. -/
def closing (sb : Sb D) : Sb D := { sb with txDepth := 0 }

theorem logCommit_eq [BlockFormat D] (g : Geometry) (depth : sb.txDepth = 1) :
    sb.logCommit g = sb.closing.commitOutermost g := by
  have opened : ¬ sb.txDepth = 0 := by omega
  have outermost : ¬ 1 < sb.txDepth := by omega
  rw [logCommit, if_neg opened, if_neg outermost]
  rfl

/-- The four ways of an outermost commit. -/
theorem commitOutermost_cases [BlockFormat D] (g : Geometry) (sb : Sb D) :
    (sb.txPoisoned = true ∧
      sb.commitOutermost g = ({ sb with txPoisoned := false } : Sb D).freeTx) ∨
    (sb.txPoisoned = false ∧ sb.tx = [] ∧ sb.commitOutermost g = sb.freeTx) ∨
    (sb.txPoisoned = false ∧ sb.tx ≠ [] ∧ g.logLen < sb.tx.length + 1 ∧
      sb.commitOutermost g = (sb.commitThrough g).freeTx) ∨
    (sb.txPoisoned = false ∧ sb.tx ≠ [] ∧ sb.tx.length + 1 ≤ g.logLen ∧
      sb.commitOutermost g = sb.commitLogged g) := by
  unfold commitOutermost
  by_cases poisoned : sb.txPoisoned = true
  · exact .inl ⟨poisoned, if_pos poisoned⟩
  have clean : sb.txPoisoned = false := by simpa using poisoned
  rw [if_neg poisoned]
  by_cases empty : sb.tx = []
  · exact .inr (.inl ⟨clean, empty, if_pos (by simp [empty])⟩)
  · rw [if_neg (by simpa using empty)]
    by_cases large : g.logLen < sb.tx.length + 1
    · exact .inr (.inr (.inl ⟨clean, empty, large, if_pos large⟩))
    · exact .inr (.inr (.inr ⟨clean, empty, Nat.le_of_not_lt large, if_neg large⟩))

theorem logCommit_cases [BlockFormat D] (g : Geometry) (depth : sb.txDepth = 1) :
    (sb.txPoisoned = true ∧
      sb.logCommit g = ({ sb.closing with txPoisoned := false } : Sb D).freeTx) ∨
    (sb.txPoisoned = false ∧ sb.tx = [] ∧ sb.logCommit g = sb.closing.freeTx) ∨
    (sb.txPoisoned = false ∧ sb.tx ≠ [] ∧ g.logLen < sb.tx.length + 1 ∧
      sb.logCommit g = (sb.closing.commitThrough g).freeTx) ∨
    (sb.txPoisoned = false ∧ sb.tx ≠ [] ∧ sb.tx.length + 1 ≤ g.logLen ∧
      sb.logCommit g = sb.closing.commitLogged g) := by
  rw [logCommit_eq g depth]
  exact commitOutermost_cases g sb.closing

theorem foldl_update_eq (recording : sb.Recording)
    (fits : (recordAll sb.tx ws).length ≤ logMaxBlocks) :
    ws.foldl (fun sb w => sb.update w true) sb =
      { sb with tx := recordAll sb.tx ws, dev := ws.foldl touch sb.dev } := by
  induction ws generalizing sb with
  | nil => rfl
  | cons w ws ih =>
    have first := (recordAll_length_le (record sb.tx w) ws).trans fits
    rw [List.foldl_cons, update_eq recording first]
    exact ih ⟨recording.depth, recording.poisoned, recording.draining⟩ fits

/-- The state a transaction's commit starts from: its blocks recorded and in the cache,
none of them marked. -/
theorem transact_eq [BlockFormat D] (g : Geometry) (quiet : sb.Quiet)
    (fits : (recordAll [] ws).length ≤ logMaxBlocks) :
    sb.transact g ws =
      ({ sb with
          tx := recordAll [] ws
          txDepth := 1
          dev := ws.foldl touch sb.dev } : Sb D).logCommit g := by
  have opened : sb.logBegin.Recording :=
    ⟨by simp [logBegin], quiet.poisoned, quiet.draining⟩
  have empty : sb.logBegin.tx = [] := by simp [logBegin, quiet.depth]
  rw [transact, foldl_update_eq opened (by rwa [empty])]
  simp [logBegin, quiet.depth]

theorem transact_nil [BlockFormat D] (g : Geometry) (quiet : sb.Quiet) : sb.transact g [] = sb := by
  obtain ⟨depth, tx, poisoned, draining⟩ := quiet
  cases sb
  subst depth tx poisoned draining
  rfl

/-- A transaction with something to write, in a log that can hold it. -/
theorem transact_logged [BlockFormat D] {g : Geometry} (quiet : sb.Quiet)
    (fits : (recordAll [] ws).length ≤ logMaxBlocks) (some : recordAll [] ws ≠ [])
    (room : (recordAll [] ws).length + 1 ≤ g.logLen) :
    sb.transact g ws =
      ({ sb with
          tx := recordAll [] ws
          txDepth := 0
          dev := ws.foldl touch sb.dev } : Sb D).commitLogged g := by
  rw [transact_eq g quiet fits]
  have depth : ({ sb with
      tx := recordAll [] ws
      txDepth := 1
      dev := ws.foldl touch sb.dev } : Sb D).txDepth = 1 := rfl
  obtain ⟨poisoned, _⟩ | ⟨_, empty, _⟩ | ⟨_, _, large, _⟩ | ⟨_, _, _, done⟩ :=
    logCommit_cases g depth
  · exact absurd (quiet.poisoned.symm.trans poisoned) (by decide)
  · exact absurd empty some
  · exact absurd room (Nat.not_le.mpr large)
  · exact done

end Sb

/-! ## Entries in the log -/

section Entries

variable {D : Type} (g : Geometry)

variable (pos : Nat) (ds : List D)

theorem keys_blocksFrom : keys (blocksFrom g pos ds) = List.range' (g.logBlock pos) ds.length := by
  induction ds generalizing pos with
  | nil => rfl
  | cons d ds ih =>
    rw [blocksFrom, keys_cons, ih, g.logBlock_add, List.length_cons, List.range'_succ]

theorem blocksFrom_append (ds es : List D) :
    blocksFrom g pos (ds ++ es) = blocksFrom g pos ds ++ blocksFrom g (pos + ds.length) es := by
  induction ds generalizing pos with
  | nil => rfl
  | cons d ds ih =>
    simp only [List.cons_append, blocksFrom, ih, List.length_cons]
    rw [Nat.add_assoc, Nat.add_comm 1]

theorem mem_keys_blocksFrom {pos b : Nat} {ds : List D} (member : b ∈ keys (blocksFrom g pos ds)) :
    ∃ p, pos ≤ p ∧ p < pos + ds.length ∧ b = g.logBlock p := by
  rw [keys_blocksFrom, List.mem_range'_1] at member
  refine ⟨b - g.logBlock 0, ?_, ?_, ?_⟩ <;> simp only [Geometry.logBlock] at member ⊢ <;> omega

theorem blocksFrom_getElem? (i : Nat) :
    (blocksFrom g pos ds)[i]? = ds[i]?.map fun d => (g.logBlock (pos + i), d) := by
  induction ds generalizing pos i with
  | nil => rfl
  | cons d ds ih =>
    cases i with
    | zero => rfl
    | succ i =>
      rw [blocksFrom, List.getElem?_cons_succ, List.getElem?_cons_succ, ih,
        show pos + 1 + i = pos + (i + 1) by omega]

theorem blocksFrom_nodup : (keys (blocksFrom g pos ds)).Nodup := by
  rw [keys_blocksFrom]
  exact List.nodup_range'

variable [BlockFormat D]

@[simp] theorem entryImage_length (entry : Writes D) :
    (entryImage g entry).length = entry.length + 1 := by
  simp [entryImage]

@[simp] theorem batchImage_nil : batchImage g ([] : Entries D) = [] := rfl

@[simp] theorem batchImage_cons (e : Writes D) (es : Entries D) :
    batchImage g (e :: es) = entryImage g e ++ batchImage g es := rfl

theorem batchImage_append (es fs : Entries D) :
    batchImage g (es ++ fs) = batchImage g es ++ batchImage g fs := by
  simp [batchImage]

end Entries

/-! ## What a flush writes -/

namespace Sb

variable {D : Type} (g : Geometry) [BlockFormat D] (sb : Sb D) {b : Nat}

/-- Phase B's writes: the superblock that publishes the batch, then the bitmap. -/
def publishWrites : Writes D :=
  (0, BlockFormat.setLog (sb.dev.peek 0) sb.logStart sb.logEnd .dirty) :: sb.bitmapImage g

theorem keys_bitmapImage : keys (sb.bitmapImage g) = List.range' 1 g.bitmapBlocks := by
  rw [List.range'_eq_map_range]
  simp [keys, bitmapImage]

theorem putAll_bitmapImage {m : Nat → D} : putAll m (sb.bitmapImage g) 0 = m 0 := by
  refine putAll_of_not_mem _ ?_
  rw [keys_bitmapImage, List.mem_range'_1]
  omega

theorem keys_publishWrites : keys (sb.publishWrites g) = List.range' 0 (1 + g.bitmapBlocks) := by
  rw [publishWrites, keys_cons, keys_bitmapImage, Nat.add_comm 1, List.range'_succ]

theorem mem_keys_publishWrites : b ∈ keys (sb.publishWrites g) ↔ b < 1 + g.bitmapBlocks := by
  rw [keys_publishWrites, List.mem_range'_1]
  omega

theorem not_mem_keys_publishWrites (beyond : 1 + g.bitmapBlocks ≤ b) :
    b ∉ keys (sb.publishWrites g) := by
  rw [mem_keys_publishWrites]
  omega

theorem putAll_publishWrites_zero (m : Nat → D) :
    putAll m (sb.publishWrites g) 0 =
      BlockFormat.setLog (sb.dev.peek 0) sb.logStart sb.logEnd .dirty := by
  rw [publishWrites, putAll_cons, putAll_bitmapImage, put_same]

/-- The cache with phase B's blocks stored and phase A done. -/
def publishDev : Dev D :=
  ((sb.dev.syncSelect (g.logBlock sb.logStart) sb.logPendBlocks).storeAll (sb.bitmapImage g)).store 0
    (BlockFormat.setLog (sb.dev.peek 0) sb.logStart sb.logEnd .dirty)

theorem flushLocked_eq (pending : sb.logPending = true) :
    sb.flushLocked g =
      { sb with
        dev := ((sb.publishDev g).syncSelect 0 (1 + g.bitmapBlocks)).syncBuffers
        flags := .dirty
        logPending := false
        logPendBlocks := 0 } := by
  have same : ((sb.dev.syncSelect (g.logBlock sb.logStart) sb.logPendBlocks).storeAll
      (sb.bitmapImage g)).peek 0 = sb.dev.peek 0 := by
    rw [storeAll_peek, putAll_bitmapImage, syncSelect_peek]
  rw [flushLocked, if_pos pending]
  simp only [logWriteBitmap, logWriteSuper, superImage, publishDev, bitmapImage, Bool.false_eq_true,
    if_false] at same ⊢
  rw [same]

theorem publishThrough_eq : sb.publishThrough g = { sb with
      dev := (sb.dev.storeAll (sb.bitmapImage g ++
        [(0, BlockFormat.setLog (sb.dev.peek 0) sb.logStart sb.logEnd .dirty)])).syncBuffers
      flags := .dirty } := by
  have same : (sb.dev.storeAll (sb.bitmapImage g)).peek 0 = sb.dev.peek 0 := by
    rw [storeAll_peek, putAll_bitmapImage]
  simp only [publishThrough, logWriteBitmap, logWriteSuper, superImage, bitmapImage, if_true,
    storeAll_append, storeAll_cons, storeAll_nil] at same ⊢
  rw [same]

theorem flushLocked_idle (idle : sb.logPending = false) : sb.flushLocked g = sb := by
  simp [flushLocked, idle]

/-- Closing the batch does not look at the recorded transaction. -/
theorem closeBatch_freeTx : sb.freeTx.closeBatch g = (sb.closeBatch g).freeTx := by
  unfold closeBatch flushLocked freeTx
  split
  · split <;> rfl
  · rfl

/-- `sb'` has the open transaction and the bitmap of `sb`. -/
structure Carries (sb sb' : Sb D) : Prop where
  tx : sb'.tx = sb.tx
  depth : sb'.txDepth = sb.txDepth
  poisoned : sb'.txPoisoned = sb.txPoisoned
  draining : sb'.logDraining = sb.logDraining
  space : sb'.space = sb.space

omit [BlockFormat D] in
theorem Carries.trans {sb sb₁ sb₂ : Sb D} (first : Carries sb sb₁) (next : Carries sb₁ sb₂) :
    Carries sb sb₂ :=
  ⟨next.tx.trans first.tx, next.depth.trans first.depth, next.poisoned.trans first.poisoned,
    next.draining.trans first.draining, next.space.trans first.space⟩

theorem flushLocked_carries : Carries sb (sb.flushLocked g) := by
  cases pending : sb.logPending with
  | false =>
    rw [flushLocked_idle g sb pending]
    exact ⟨rfl, rfl, rfl, rfl, rfl⟩
  | true =>
    rw [flushLocked_eq g sb pending]
    exact ⟨rfl, rfl, rfl, rfl, rfl⟩

theorem flushLocked_logEnd : (sb.flushLocked g).logEnd = sb.logEnd := by
  cases pending : sb.logPending with
  | false => rw [flushLocked_idle g sb pending]
  | true => rw [flushLocked_eq g sb pending]

theorem makeRoom_carries (n : Nat) : Carries sb (sb.makeRoom g n) := by
  unfold makeRoom
  split
  · exact ⟨rfl, rfl, rfl, rfl, rfl⟩
  · exact (flushLocked_carries g sb).trans ⟨rfl, rfl, rfl, rfl, rfl⟩

theorem capBatch_carries (n : Nat) : Carries sb (sb.capBatch g n) := by
  unfold capBatch
  split
  · exact flushLocked_carries g sb
  · exact ⟨rfl, rfl, rfl, rfl, rfl⟩

theorem closeBatch_carries : Carries sb (sb.closeBatch g) := by
  unfold closeBatch
  split
  · exact flushLocked_carries g sb
  · exact ⟨rfl, rfl, rfl, rfl, rfl⟩

/-- A commit that fits, up to the end of its transaction. -/
theorem commitLogged_carries (n : Nat) :
    Carries sb ((((sb.makeRoom g n).capBatch g n).appendEntry g).closeBatch g) :=
  have appended : Carries ((sb.makeRoom g n).capBatch g n)
      (((sb.makeRoom g n).capBatch g n).appendEntry g) := ⟨rfl, rfl, rfl, rfl, rfl⟩
  (((makeRoom_carries g sb n).trans (capBatch_carries g _ n)).trans appended).trans
    (closeBatch_carries g _)

theorem commitLogged_quiet (depth : sb.txDepth = 0) (poisoned : sb.txPoisoned = false)
    (draining : sb.logDraining = false) : (sb.commitLogged g).Quiet :=
  have carries := commitLogged_carries g sb sb.tx.length
  ⟨carries.depth.trans depth, rfl, carries.poisoned.trans poisoned, carries.draining.trans draining⟩

theorem commitLogged_space : (sb.commitLogged g).space = sb.space :=
  (commitLogged_carries g sb sb.tx.length).space

theorem logFlush_quiet (quiet : sb.Quiet) : (sb.logFlush g).Quiet :=
  have carries := flushLocked_carries g sb
  ⟨carries.depth.trans quiet.depth, carries.tx.trans quiet.tx,
    carries.poisoned.trans quiet.poisoned, carries.draining.trans quiet.draining⟩

theorem flushLocked_rest (unused : sb.logPending = false → sb.logPendBlocks = 0) :
    (sb.flushLocked g).logPending = false ∧ (sb.flushLocked g).logPendBlocks = 0 ∧
      (sb.flushLocked g).logEnd = sb.logEnd ∧ (sb.flushLocked g).tx = sb.tx := by
  cases pending : sb.logPending with
  | false => simp [flushLocked_idle g sb pending, pending, unused pending]
  | true => simp [flushLocked_eq g sb pending]

/-- The four courses of a commit that fits in the log: over the end of it, over the
cap of the batch, into the batch, and into a batch that is full with it. -/
theorem commitLogged_cases (small : sb.tx.length ≤ logMaxBlocks)
    (unused : sb.logPending = false → sb.logPendBlocks = 0) :
    (g.logLen < sb.logEnd + sb.tx.length + 1 ∧
      sb.commitLogged g = ((sb.flushLocked g).wrap.appendEntry g).freeTx) ∨
    (sb.logEnd + sb.tx.length + 1 ≤ g.logLen ∧
      (sb.logPending = true ∧ logBatchBlocks < sb.logPendBlocks + sb.tx.length + 1) ∧
      sb.commitLogged g = ((sb.flushLocked g).appendEntry g).freeTx) ∨
    (sb.logEnd + sb.tx.length + 1 ≤ g.logLen ∧
      sb.logPendBlocks + sb.tx.length + 1 < logBatchBlocks ∧
      sb.commitLogged g = (sb.appendEntry g).freeTx) ∨
    (sb.logEnd + sb.tx.length + 1 ≤ g.logLen ∧
      sb.logPendBlocks + sb.tx.length + 1 = logBatchBlocks ∧
      sb.commitLogged g = ((sb.appendEntry g).freeTx).flushLocked g) := by
  obtain ⟨idle, zero, _, tx⟩ := flushLocked_rest g sb unused
  have short : sb.tx.length + 1 < logBatchBlocks := by
    have : sb.tx.length ≤ 48 := small
    show _ < 96
    omega
  simp only [commitLogged]
  by_cases room : sb.logEnd + sb.tx.length + 1 ≤ g.logLen
  · have made : sb.makeRoom g sb.tx.length = sb := if_pos room
    rw [made]
    by_cases overrun : sb.logPending = true ∧ logBatchBlocks < sb.logPendBlocks + sb.tx.length + 1
    · have capped : sb.capBatch g sb.tx.length = sb.flushLocked g := if_pos overrun
      have left : ¬ logBatchBlocks ≤ ((sb.flushLocked g).appendEntry g).logPendBlocks := by
        simp only [appendEntry, tx]
        omega
      have closed : ((sb.flushLocked g).appendEntry g).closeBatch g = _ := if_neg left
      rw [capped, closed]
      exact .inr (.inl ⟨room, overrun, rfl⟩)
    · have capped : sb.capBatch g sb.tx.length = sb := if_neg overrun
      rw [capped]
      by_cases full : logBatchBlocks ≤ sb.logPendBlocks + sb.tx.length + 1
      · have equal : sb.logPendBlocks + sb.tx.length + 1 = logBatchBlocks := by
          cases pending : sb.logPending with
          | false =>
            have := unused pending
            omega
          | true =>
            have : ¬ logBatchBlocks < sb.logPendBlocks + sb.tx.length + 1 :=
              fun more => overrun ⟨pending, more⟩
            omega
        have closed : (sb.appendEntry g).freeTx.closeBatch g = _ := if_pos full
        rw [← closeBatch_freeTx, closed]
        exact .inr (.inr (.inr ⟨room, equal, rfl⟩))
      · have closed : (sb.appendEntry g).closeBatch g = _ := if_neg full
        rw [closed]
        exact .inr (.inr (.inl ⟨room, Nat.lt_of_not_le full, rfl⟩))
  · have made : sb.makeRoom g sb.tx.length = (sb.flushLocked g).wrap := if_neg room
    have capped : (sb.flushLocked g).wrap.capBatch g sb.tx.length = (sb.flushLocked g).wrap := by
      refine if_neg ?_
      rintro ⟨pending, _⟩
      exact absurd (idle.symm.trans pending) (by decide)
    have left : ¬ logBatchBlocks ≤ ((sb.flushLocked g).wrap.appendEntry g).logPendBlocks := by
      show ¬ _ ≤ (sb.flushLocked g).logPendBlocks + (sb.flushLocked g).tx.length + 1
      rw [tx]
      omega
    have closed : ((sb.flushLocked g).wrap.appendEntry g).closeBatch g = _ := if_neg left
    rw [made, capped, closed]
    exact .inl ⟨Nat.lt_of_not_le room, rfl⟩

theorem publishDev_staged : (sb.publishDev g).Staged (sb.publishWrites g) := by
  have nodup : (keys (sb.bitmapImage g)).Nodup := by
    rw [keys_bitmapImage]
    exact List.nodup_range'
  intro w member
  rcases List.mem_cons.mp member with rfl | inBitmap
  · exact store_same _ _ _
  have positive : w.1 ≠ 0 := by
    have key := mem_keys.mpr ⟨w.2, inBitmap⟩
    rw [keys_bitmapImage, List.mem_range'_1] at key
    omega
  rw [publishDev, store_ne _ _ positive]
  exact staged_storeAll _ nodup w inBitmap

theorem publishDev_peek : (sb.publishDev g).peek = putAll sb.dev.peek (sb.publishWrites g) := by
  funext b
  rw [publishDev, store_peek, storeAll_peek, syncSelect_peek, publishWrites, putAll_cons]
  by_cases here : b = 0
  · subst here
    rw [put_same, putAll_bitmapImage, put_same]
  · rw [put_of_ne _ _ here]
    exact putAll_congr fun _ => (put_of_ne _ _ here).symm

theorem mem_publishDev_dirtyList :
    b ∈ (sb.publishDev g).dirtyList ↔ b ∈ sb.dev.dirtyList ∨ b < 1 + g.bitmapBlocks := by
  rw [publishDev, store_dirtyList, mem_link, mem_storeAll_dirtyList,
    syncSelect_dirtyList, keys_bitmapImage, List.mem_range'_1, or_assoc]
  refine or_congr_right ?_
  omega

theorem publishDev_linked (linked : sb.dev.DirtyLinked) : (sb.publishDev g).DirtyLinked :=
  ((linked.syncSelect _ _).storeAll _).store _ _

section Flush

variable {g sb} {ds : List D}

/-- The three phases of a flush, write by write. Phase A writes the batch's log blocks
that are dirty; phase C repeats whatever is on the dirty list, the blocks of
phases A and B included. -/
theorem flushLocked_wrote (pending : sb.logPending = true) (size : sb.logPendBlocks = ds.length) :
    ∃ rest, sb.dev.Wrote (sb.flushLocked g).dev
        ((keys (blocksFrom g sb.logStart ds)).filterMap sb.dev.selected ++
          (sb.publishWrites g ++ rest)) ∧
      ∀ w ∈ rest, (w.1 ∈ sb.dev.dirtyList ∨ w.1 < 1 + g.bitmapBlocks) ∧
        w.2 = putAll sb.dev.peek (sb.publishWrites g) w.1 := by
  have phaseA := syncSelect_wrote sb.dev (g.logBlock sb.logStart) sb.logPendBlocks
  rw [size, ← keys_blocksFrom g sb.logStart ds, ← size] at phaseA
  have stored : Dev.Wrote (sb.dev.syncSelect (g.logBlock sb.logStart) sb.logPendBlocks)
      (sb.publishDev g) [] :=
    Dev.Wrote.none (by simp [publishDev]) (by simp [publishDev])
  have phaseB := syncSelect_wrote (sb.publishDev g) 0 (1 + g.bitmapBlocks)
  rw [← keys_publishWrites g sb, (publishDev_staged g sb).selected] at phaseB
  have phaseC := syncBuffers_wrote ((sb.publishDev g).syncSelect 0 (1 + g.bitmapBlocks))
  refine ⟨((sb.publishDev g).syncSelect 0 (1 + g.bitmapBlocks)).dirtyWrites, ?_, fun w member => ?_⟩
  · rw [flushLocked_eq g sb pending]
    exact phaseA.trans (stored.trans (phaseB.trans phaseC))
  · obtain ⟨b, linked, found⟩ := List.mem_filterMap.mp member
    have shape := image_eq_some found
    rw [syncSelect_dirtyList, mem_publishDev_dirtyList] at linked
    rw [syncSelect_peek, publishDev_peek] at shape
    subst shape
    exact ⟨linked, rfl⟩

/-- A flush leaves on disk what the cache held, wherever the dirty list reached. -/
theorem flushLocked_disk (pending : sb.logPending = true)
    (linked : b ∈ sb.dev.dirtyList ∨ b < 1 + g.bitmapBlocks) :
    (sb.flushLocked g).dev.disk b = putAll sb.dev.peek (sb.publishWrites g) b := by
  rw [flushLocked_eq g sb pending]
  have reached : b ∈ ((sb.publishDev g).syncSelect 0 (1 + g.bitmapBlocks)).dirtyList := by
    rw [syncSelect_dirtyList, mem_publishDev_dirtyList]
    exact linked
  rw [syncBuffers_disk, if_pos reached, syncSelect_peek, publishDev_peek]

theorem flushLocked_linked (linked : sb.dev.DirtyLinked) : (sb.flushLocked g).dev.DirtyLinked := by
  cases pending : sb.logPending with
  | false => rwa [flushLocked_idle g sb pending]
  | true =>
    rw [flushLocked_eq g sb pending]
    exact ((publishDev_linked g sb linked).syncSelect _ _).syncBuffers

end Flush

end Sb

end Argentum.Agfs
