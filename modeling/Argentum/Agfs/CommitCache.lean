/-
# Agfs.CommitCache — what commits and flushes do to the cache

A commit writes log blocks, superblock and bitmap, and the blocks recorded in its
transaction (`logCommit_flow`). So it shows readers of metadata the recorded
contents only, and leaves other buffers' locks alone.
-/
import Argentum.Agfs.Journal

namespace Argentum.Agfs.Sb

open Lib.WriteLog Fs List Dev

variable {D : Type} {b : Nat}

/-! ## An overflow -/

/-- Writing recorded copies through changes nothing in the cache where it shows them
already. -/
theorem writeThrough_peek {sb : Sb D} {blk : Nat}
    (copies : ∀ w ∈ sb.tx, w.1 ≠ blk → sb.dev.bufferLocked w.1 = false →
      sb.dev.peek w.1 = w.2) : (sb.writeThrough blk).peek = sb.dev.peek := by
  suffices all : ∀ (ws : Writes D) (dev : Dev D),
      (∀ w ∈ ws, w.1 ≠ blk → dev.bufferLocked w.1 = false → dev.peek w.1 = w.2) →
      (ws.foldl (fun dev w =>
        if w.1 = blk ∨ dev.bufferLocked w.1 then dev else dev.store w.1 w.2) dev).peek =
          dev.peek from
    all sb.tx sb.dev copies
  intro ws
  induction ws with
  | nil => exact fun _ _ => rfl
  | cons w ws ih =>
    intro dev copies
    rw [foldl_cons]
    split
    · exact ih dev (forall_mem_of_forall_mem_cons copies)
    rename_i free
    rw [not_or, Bool.not_eq_true] at free
    have shown : (dev.store w.1 w.2).peek = dev.peek := by
      rw [store_peek]
      exact put_self (copies w mem_cons_self free.1 free.2)
    rw [ih, shown]
    intro v member other unlocked
    rw [shown]
    apply copies v (mem_cons_of_mem _ member) other
    rw [store_bufferLocked] at unlocked
    split at unlocked
    · rename_i same
      exact same ▸ free.2
    · exact unlocked

/-- What is locked stays locked: the overflow passes it over. -/
theorem writeThrough_bufferLocked {sb : Sb D} (blk : Nat)
    (locked : sb.dev.bufferLocked b = true) : (sb.writeThrough blk).bufferLocked b = true := by
  suffices all : ∀ (ws : Writes D) (dev : Dev D), dev.bufferLocked b = true →
      (ws.foldl (fun dev w =>
        if w.1 = blk ∨ dev.bufferLocked w.1 then dev else dev.store w.1 w.2) dev).bufferLocked b =
          true from
    all sb.tx sb.dev locked
  intro ws
  induction ws with
  | nil => exact fun _ locked => locked
  | cons w ws ih =>
    intro dev locked
    rw [foldl_cons]
    apply ih
    split
    · exact locked
    rename_i free
    have other : b ≠ w.1 := by
      rintro rfl
      exact free (.inr locked)
    rw [store_bufferLocked, if_neg other]
    exact locked

/-! ## The parts of a commit -/

variable {g : Geometry} [BlockFormat D] {sb : Sb D}

theorem entry_not_meta (room : sb.Room g)
    (member : b ∈ keys (blocksFrom g sb.logEnd (entryImage g sb.tx))) : ¬ g.IsMeta b := by
  obtain ⟨p, _, below, rfl⟩ := mem_keys_blocksFrom g member
  rw [entryImage_length] at below
  exact g.logBlock_not_meta (by omega)

theorem bitmapImage_not_meta {w : Nat × D} (member : w ∈ sb.bitmapImage g) : ¬ g.IsMeta w.1 := by
  have key := mem_keys.mpr ⟨w.2, member⟩
  rw [keys_bitmapImage, mem_range'_1] at key
  intro isMeta
  have := isMeta.1
  omega

theorem zero_not_meta : ¬ g.IsMeta 0 := by
  intro isMeta
  have := isMeta.1
  omega

theorem flushLocked_flow : sb.dev.Flow (fun w => ¬ g.IsMeta w.1) (sb.flushLocked g).dev := by
  cases pending : sb.logPending with
  | false =>
    rw [flushLocked_idle g sb pending]
    exact .refl
  | true =>
    rw [flushLocked_eq g sb pending]
    refine Dev.Flow.syncBuffers (Dev.Flow.syncSelect ?_ _ _)
    refine Dev.Flow.store (w := (0, _)) ?_ zero_not_meta
    exact (Dev.Flow.refl.syncSelect _ _).storeAll fun w member => bitmapImage_not_meta member

theorem wrap_flow : sb.dev.Flow (fun w => ¬ g.IsMeta w.1) sb.wrap.dev :=
  (Dev.Flow.refl.store (w := (0, _)) zero_not_meta).syncBuffers

theorem publishThrough_flow : sb.dev.Flow (fun w => ¬ g.IsMeta w.1) (sb.publishThrough g).dev := by
  rw [publishThrough_eq]
  refine Dev.Flow.syncBuffers (Dev.Flow.refl.storeAll (forall_mem_append.mpr ⟨?_, ?_⟩))
  · exact fun w inBitmap => bitmapImage_not_meta inBitmap
  · exact forall_mem_singleton.mpr zero_not_meta

theorem appendEntry_flow (room : sb.Room g) :
    sb.dev.Flow (fun w => w ∈ sb.tx ∨ ¬ g.IsMeta w.1) (sb.appendEntry g).dev := by
  refine Dev.Flow.storeAll (Dev.Flow.refl.storeAll fun w member => ?_) fun w member => .inl member
  exact .inr (entry_not_meta room (mem_keys.mpr ⟨w.2, member⟩))

/-- In the cache, appending an entry applies it. -/
theorem appendEntry_peek (room : sb.Room g)
    (isMeta : g.IsMeta b) : (sb.appendEntry g).dev.peek b = putAll sb.dev.peek sb.tx b := by
  have unlogged : b ∉ keys (blocksFrom g sb.logEnd (entryImage g sb.tx)) :=
    fun member => entry_not_meta room member isMeta
  show ((sb.dev.storeAll _).storeAll sb.tx).peek b = _
  rw [storeAll_peek, storeAll_peek]
  exact putAll_congr fun _ => putAll_of_not_mem _ unlogged

/-! ## Whole commits -/

theorem makeRoom_flow (n : Nat) : sb.dev.Flow (fun w => ¬ g.IsMeta w.1) (sb.makeRoom g n).dev := by
  unfold makeRoom
  split
  · exact .refl
  · exact flushLocked_flow.trans wrap_flow

theorem makeRoom_room {n : Nat} (fits : n + 1 ≤ g.logLen) :
    (sb.makeRoom g n).logEnd + n + 1 ≤ g.logLen := by
  unfold makeRoom
  split
  · assumption
  · show 0 + n + 1 ≤ g.logLen
    omega

theorem capBatch_flow (n : Nat) : sb.dev.Flow (fun w => ¬ g.IsMeta w.1) (sb.capBatch g n).dev := by
  unfold capBatch
  split
  · exact flushLocked_flow
  · exact .refl

theorem capBatch_logEnd (n : Nat) : (sb.capBatch g n).logEnd = sb.logEnd := by
  unfold capBatch
  split
  · exact flushLocked_logEnd g sb
  · rfl

theorem closeBatch_flow : sb.dev.Flow (fun w => ¬ g.IsMeta w.1) (sb.closeBatch g).dev := by
  unfold closeBatch
  split
  · exact flushLocked_flow
  · exact .refl

theorem commitLogged_flow (fits : sb.tx.length + 1 ≤ g.logLen) :
    sb.dev.Flow (fun w => w ∈ sb.tx ∨ ¬ g.IsMeta w.1) (sb.commitLogged g).dev := by
  have before : sb.dev.Flow (fun w => w ∈ sb.tx ∨ ¬ g.IsMeta w.1)
      ((sb.makeRoom g sb.tx.length).capBatch g sb.tx.length).dev :=
    ((makeRoom_flow _).trans (capBatch_flow _)).mono fun _ => .inr
  have tx : ((sb.makeRoom g sb.tx.length).capBatch g sb.tx.length).tx = sb.tx :=
    ((makeRoom_carries g sb _).trans (capBatch_carries g _ _)).tx
  have room : ((sb.makeRoom g sb.tx.length).capBatch g sb.tx.length).logEnd +
      ((sb.makeRoom g sb.tx.length).capBatch g sb.tx.length).tx.length + 1 ≤ g.logLen := by
    rw [capBatch_logEnd, tx]
    exact makeRoom_room fits
  have entry := appendEntry_flow room
  rw [tx] at entry
  exact (before.trans entry).trans (closeBatch_flow.mono fun _ => .inr)

/-- **All a commit can do to the cache**: write, and overwrite log, superblock, bitmap and
the blocks of the transaction, the last with their recorded contents. -/
theorem logCommit_flow (depth : sb.txDepth = 1) :
    sb.dev.Flow (fun w => w ∈ sb.tx ∨ ¬ g.IsMeta w.1) (sb.logCommit g).dev := by
  obtain ⟨_, done⟩ | ⟨_, _, done⟩ | ⟨_, _, _, done⟩ | ⟨_, _, fits, done⟩ :=
    logCommit_cases g depth <;> rw [done]
  · exact .refl
  · exact .refl
  · have through : sb.closing.dev.Flow (fun w => ¬ g.IsMeta w.1)
        (sb.closing.publishThrough g).dev := publishThrough_flow
    have published : sb.dev.Flow (fun w => w ∈ sb.tx ∨ ¬ g.IsMeta w.1)
        (sb.closing.publishThrough g).dev := through.mono fun _ => .inr
    have tx : (sb.closing.publishThrough g).tx = sb.tx := by rfl
    refine Dev.Flow.syncBuffers (published.storeAll fun w member => .inl ?_)
    exact tx ▸ member
  · have logged : sb.closing.dev.Flow (fun w => w ∈ sb.closing.tx ∨ ¬ g.IsMeta w.1)
        (sb.closing.commitLogged g).dev := commitLogged_flow fits
    exact logged

theorem flushLocked_meta (isMeta : g.IsMeta b) : (sb.flushLocked g).dev.peek b = sb.dev.peek b :=
  flushLocked_flow.peek fun _ other same => absurd (same ▸ isMeta) other

theorem wrap_meta (isMeta : g.IsMeta b) : sb.wrap.dev.peek b = sb.dev.peek b :=
  wrap_flow.peek fun _ other same => absurd (same ▸ isMeta) other

/-- A commit changes no metadata block that the cache shows as it is recorded. -/
theorem logCommit_peek (depth : sb.txDepth = 1) (copies : ∀ w ∈ sb.tx, sb.dev.peek w.1 = w.2)
    (isMeta : g.IsMeta b) : (sb.logCommit g).dev.peek b = sb.dev.peek b := by
  apply (logCommit_flow depth).peek
  rintro w (recorded | other) rfl
  · exact (copies w recorded).symm
  · exact absurd isMeta other

theorem logCommit_bufferLocked (depth : sb.txDepth = 1) (isMeta : g.IsMeta b)
    (absent : b ∉ keys sb.tx) :
    (sb.logCommit g).dev.bufferLocked b = sb.dev.bufferLocked b := by
  apply (logCommit_flow depth).bufferLocked
  rintro w (recorded | other) rfl
  · exact absent (mem_keys.mpr ⟨w.2, recorded⟩)
  · exact other isMeta

/-- The outermost commit ends the transaction. -/
theorem commitOutermost_quiet (depth : sb.txDepth = 0) (draining : sb.logDraining = false) :
    (sb.commitOutermost g).Quiet := by
  obtain ⟨_, done⟩ | ⟨clean, _, done⟩ | ⟨clean, _, _, done⟩ | ⟨clean, _, _, done⟩ :=
    commitOutermost_cases g sb <;> rw [done]
  · exact ⟨depth, rfl, rfl, draining⟩
  · exact ⟨depth, rfl, clean, draining⟩
  · exact ⟨depth, rfl, clean, draining⟩
  · exact commitLogged_quiet g sb depth clean draining

theorem logCommit_quiet (depth : sb.txDepth = 1) (draining : sb.logDraining = false) :
    (sb.logCommit g).Quiet := by
  rw [logCommit_eq g depth]
  exact commitOutermost_quiet rfl draining

end Argentum.Agfs.Sb
