/-
# Fs.Eviction — buffers taken away from their blocks

`getblk` takes a buffer that nobody holds for another block: a dirty one it first
writes out and puts back, a clean one it takes as it is (`recycle`). `reclaim_buffers`
writes a dirty one out and gives its memory back (`reclaim`). Neither knows what a
clean buffer holds that the disk does not; a reader of the block then gets the disk's
content.

A recycled buffer that a selective flush left on the dirty list takes its link along
to its new block, so the link of the old one is gone.
-/
import Argentum.Fs.BufferState

namespace Argentum.Fs.Dev

open Lib.WriteLog

variable {D : Type}

section

variable (dev : Dev D) (b : Nat)

/-- `sync_one_buffer`, then `remove_from_dirty_list`. -/
def cleanse : Dev D :=
  { dev.syncOne b with dirtyList := dev.dirtyList.filter fun c => c ≠ b }

/-- `remove_from_hash`: the block has no buffer any more. -/
def unhash : Dev D :=
  { dev with
    buf := Function.update dev.buf b none
    dirtyList := dev.dirtyList.filter fun c => c ≠ b }

/-- What `getblk` does to the free buffer it finds, that of block `b`. -/
def recycle : Option (Dev D) :=
  match dev.buf b with
  | some bf =>
    if bf.locked then none else if bf.dirty then some (dev.cleanse b) else some (dev.unhash b)
  | none => none

/-- What `reclaim_buffers` does to the free buffer it finds, that of block `b`. -/
def reclaim : Option (Dev D) :=
  match dev.buf b with
  | some bf =>
    if bf.locked then none
    else if bf.dirty then some ((dev.cleanse b).unhash b) else some (dev.unhash b)
  | none => none

/-- The buffer of `b` can go: if it is clean, the disk has what it holds. -/
def Backed : Prop :=
  ∀ bf, dev.buf b = some bf → bf.dirty = false → bf.data = dev.disk b

end

section Evict

variable {dev dev' : Dev D} {b : Nat} {c : Nat}

theorem unhash_peek_ne (dev : Dev D) (ne : c ≠ b) : (dev.unhash b).peek c = dev.peek c := by
  simp [unhash, peek, ne]

theorem unhash_peek (backed : dev.disk b = dev.peek b) : (dev.unhash b).peek = dev.peek := by
  funext c
  by_cases here : c = b
  · subst here
    rw [← backed]
    simp [unhash, peek]
  · exact unhash_peek_ne dev here

theorem cleanse_peek (dev : Dev D) (b : Nat) : (dev.cleanse b).peek = dev.peek :=
  syncOne_peek dev b

theorem cleanse_disk {bf : Buffer D} (cached : dev.buf b = some bf) :
    (dev.cleanse b).disk b = dev.peek b := by
  simp [cleanse, syncOne, peek, cached, put_same]

theorem cleanse_bufferLocked (dev : Dev D) (b c : Nat) :
    (dev.cleanse b).bufferLocked c = dev.bufferLocked c :=
  syncOne_bufferLocked dev b c

theorem unhash_bufferLocked (free : dev.bufferLocked b = false) (c : Nat) :
    (dev.unhash b).bufferLocked c = dev.bufferLocked c := by
  by_cases here : c = b
  · subst here
    rw [free]
    simp [unhash, bufferLocked]
  · exact bufferLocked_congr (by simp [unhash, here])

variable (evicted : dev.recycle b = some dev' ∨ dev.reclaim b = some dev')

include evicted

/-- Either way the buffer was free, and written out first if it was dirty. -/
theorem evict_cases :
    dev.bufferLocked b = false ∧ ∃ bf, dev.buf b = some bf ∧
      (bf.dirty = true ∧ (dev' = dev.cleanse b ∨ dev' = (dev.cleanse b).unhash b) ∨
        bf.dirty = false ∧ dev' = dev.unhash b) := by
  cases cached : dev.buf b with
  | none => simp [recycle, reclaim, cached] at evicted
  | some bf =>
    cases locked : bf.locked with
    | true => simp [recycle, reclaim, cached, locked] at evicted
    | false =>
      refine ⟨by simp [bufferLocked, cached, locked], bf, rfl, ?_⟩
      cases dirty : bf.dirty with
      | true =>
        simp only [recycle, reclaim, cached, locked, dirty, Bool.false_eq_true, if_false,
          if_true, Option.some.injEq] at evicted
        exact .inl ⟨rfl, evicted.imp Eq.symm Eq.symm⟩
      | false =>
        simp only [recycle, reclaim, cached, locked, dirty, Bool.false_eq_true, if_false,
          Option.some.injEq, or_self] at evicted
        exact .inr ⟨rfl, evicted.symm⟩

theorem evict_bufferLocked (c : Nat) : dev'.bufferLocked c = dev.bufferLocked c := by
  obtain ⟨free, bf, _, ⟨_, rfl | rfl⟩ | ⟨_, rfl⟩⟩ := evict_cases evicted
  · exact cleanse_bufferLocked dev b c
  · have still : (dev.cleanse b).bufferLocked b = false := by rw [cleanse_bufferLocked, free]
    rw [unhash_bufferLocked still, cleanse_bufferLocked]
  · exact unhash_bufferLocked free c

/-- Readers of the other blocks see no difference. -/
theorem evict_peek_ne (ne : c ≠ b) : dev'.peek c = dev.peek c := by
  obtain ⟨_, bf, _, ⟨_, rfl | rfl⟩ | ⟨_, rfl⟩⟩ := evict_cases evicted
  · rw [cleanse_peek]
  · rw [unhash_peek_ne _ ne, cleanse_peek]
  · exact unhash_peek_ne dev ne

/-- Nor do readers of this one, if the disk has what a clean buffer holds. -/
theorem evict_peek (backed : dev.Backed b) : dev'.peek = dev.peek := by
  obtain ⟨_, bf, cached, ⟨_, rfl | rfl⟩ | ⟨clean, rfl⟩⟩ := evict_cases evicted
  · exact cleanse_peek dev b
  · rw [unhash_peek, cleanse_peek]
    rw [cleanse_disk cached, cleanse_peek]
  · apply unhash_peek
    rw [← backed bf cached clean]
    simp [peek, cached]

end Evict

end Argentum.Fs.Dev
