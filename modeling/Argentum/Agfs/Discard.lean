/-
# Agfs.Discard — the discards behind a flush

`agfs_bfree` queues what it frees; the queue is handed to the device behind phase C
of a flush, and behind a commit that bypasses the log. Each queued extent is tested
against the cached bitmap once more (`nextDiscard_free`). The queue does not know the
transactions: a block freed outside any, or inside one that has to close the older
batch first, is discarded before the metadata that stops using it is in any batch.

A session goes through a flush phase by phase, with allocator calls anywhere between
(`Phase`, `step`); a commit is cut where it flushes (`Course`), and
`commits_completes` says that without calls in between it is the commit of
`Agfs.Journal`. `durable` remembers the metadata the flush was handed.
`discards_safe` asks that no queued free block is used there. `discarded_in_use` is
the run of a block freed outside a transaction.
-/
import Argentum.Agfs.StaleReplay
import Argentum.Agfs.BitmapCrash

namespace Argentum.Agfs.Discard

open Lib.WriteLog Lib.Machine Fs Sb Dev
open Agfs.PublishedRange (Txn ClearOf Direct Stale wrap_carefully fresh_logInv)
open Agfs.StaleReplay (logEntries publishedEntries publishedEntries_eq)
open Agfs.BitmapCrash (Usage)

/-! ## The queue -/

/-- `AGFS_NR_PENDING_DISCARD`. -/
def nrPendingDiscard : Nat := 256

/-- `d_start` with `d_count`, up to `ndiscard`. -/
abbrev Extents := List (Nat × Nat)

/-- `agfs_discard_add`. -/
def discardAdd (es : Extents) (block : Nat) : Extents :=
  match es.getLast? with
  | some (start, count) =>
    if start + count = block then es.dropLast ++ [(start, count + 1)]
    else if nrPendingDiscard ≤ es.length then es
    else es ++ [(block, 1)]
  | none => [(block, 1)]

section Queue

variable (g : Geometry) (bpb : Nat)

/-- What a call of the allocator queues: `agfs_bfree` of a marked block. -/
def queue (s : Space) (es : Extents) : Space.Call → Extents
  | .bfree block => if block < g.numBlocks ∧ s.test g bpb block then discardAdd es block else es
  | _ => es

def queueAll (s : Space) (es : Extents) (calls : List Space.Call) : Extents :=
  (calls.foldl (fun t c => (t.1.call g bpb c, queue g bpb t.1 t.2 c)) (s, es)).2

end Queue

section Walk

variable (used : Nat → Bool)

/-- The number of free blocks from `b` on, at most the given number. -/
def freeRun : Nat → Nat → Nat
  | 0, _ => 0
  | k + 1, b => if used b then 0 else freeRun k (b + 1) + 1

/-- The inner loop over one extent: the first free block from offset `k` on, with the
run of free blocks there. -/
def nextRun (start count k : Nat) : Option (Nat × Nat) :=
  ((List.range' k (count - k)).find? fun i => !used (start + i)).map fun i =>
    (i, freeRun used (count - i) (start + i))

/-- `agfs_flush_discards` up to its next discard: from offset `k` of the `n`-th extent,
the extents from there on being given. The result is the discard and the place behind it. -/
def nextDiscard : Extents → Nat → Nat → Option ((Nat × Nat) × Nat × Nat)
  | [], _, _ => none
  | (start, count) :: rest, n, k =>
    match nextRun used start count k with
    | some (i, run) => some ((start + i, run), n, i + run)
    | none => nextDiscard rest (n + 1) 0

/-- The block is still ahead in the walk. -/
def Ahead : Extents → Nat → Nat → Prop
  | [], _, _ => False
  | (start, count) :: rest, k, b => (∃ i, k ≤ i ∧ i < count ∧ b = start + i) ∨ Ahead rest 0 b

variable {used} {b k : Nat}

theorem freeRun_free {i : Nat} (inside : i < freeRun used k b) : i < k ∧ used (b + i) = false := by
  induction k generalizing b i with
  | zero => exact absurd inside (Nat.not_lt_zero i)
  | succ k ih =>
    rw [freeRun] at inside
    split at inside
    · exact absurd inside (Nat.not_lt_zero i)
    rename_i free
    cases i with
    | zero => exact ⟨Nat.succ_pos k, by simpa using free⟩
    | succ i =>
      obtain ⟨below, next⟩ := ih (Nat.lt_of_succ_lt_succ inside)
      exact ⟨Nat.succ_lt_succ below, by rwa [Nat.add_assoc, Nat.add_comm 1] at next⟩

/-- **A discard covers only queued blocks that the bitmap has free.** -/
theorem nextDiscard_free {es : Extents} {n first count n' k' : Nat}
    (found : nextDiscard used es n k = some ((first, count), n', k'))
    (above : first ≤ b) (below : b < first + count) : used b = false ∧ Ahead es k b := by
  induction es generalizing n k with
  | nil => cases found
  | cons e es ih =>
    obtain ⟨start, size⟩ := e
    rw [nextDiscard] at found
    split at found
    · rename_i i run here
      cases found
      rw [nextRun, Option.map_eq_some_iff] at here
      obtain ⟨j, hit, same⟩ := here
      cases same
      have place := List.mem_of_find?_eq_some hit
      rw [List.mem_range'_1] at place
      have within : b - (start + i) < freeRun used (size - i) (start + i) := by omega
      obtain ⟨inside, free⟩ := freeRun_free within
      rw [show start + i + (b - (start + i)) = b by omega] at free
      exact ⟨free, .inl ⟨b - start, by omega, by omega, by omega⟩⟩
    · obtain ⟨free, ahead⟩ := ih found
      exact ⟨free, .inr ahead⟩

end Walk

/-! ## The commit, cut where it flushes -/

/-- What is left to do behind a flush. -/
inductive Resume where
  /-- Look for room in the log again. -/
  | room
  | append
  /-- The entry filled its batch, or went past the log: end the transaction. -/
  | free
  /-- `agfs_log_flush`. -/
  | done
  /-- `agfs_log_sync`: a full sync. -/
  | sync

/-- Where a commit goes next. -/
inductive Course (D : Type) where
  | ends (sb : Sb D)
  /-- `agfs_log_flush_locked` with a batch pending. -/
  | flushes (sb : Sb D) (r : Resume)
  /-- `agfs_flush_discards`, with `m` on disk. -/
  | discards (sb : Sb D) (m : Nat → D) (r : Resume)

variable {D : Type} (g : Geometry) [BlockFormat D]

section Cut

variable (sb : Sb D)

/-- The metadata that `ws` and a flush leave behind: the dirty buffers and `ws` written,
the log range in memory replayed over them. -/
def target (ws : Writes D) : Nat → D :=
  putAll (putAll sb.dev.syncBuffers.disk ws)
    (logEntries g sb.dev.syncBuffers.disk sb.logEnd g.logLen sb.logStart).flatten

def appends : Course D :=
  let sb := sb.appendEntry g
  if logBatchBlocks ≤ sb.logPendBlocks then .flushes sb .free else .ends sb.freeTx

def caps : Course D :=
  if sb.logPending ∧ logBatchBlocks < sb.logPendBlocks + sb.tx.length + 1 then .flushes sb .append
  else appends g sb

def makesRoom : Course D :=
  if sb.logEnd + sb.tx.length + 1 ≤ g.logLen then caps g sb
  else if sb.logPending then .flushes sb .room
  else caps g sb.wrap

/-- `agfs_log_commit` at the outermost level. -/
def commits : Course D :=
  if sb.txPoisoned then .ends ({ sb with txPoisoned := false } : Sb D).freeTx
  else if sb.tx.isEmpty then .ends sb.freeTx
  else if g.logLen < sb.tx.length + 1 then
    .discards (sb.commitThrough g) (target g sb sb.tx) .free
  else makesRoom g sb

def Resume.course : Resume → Course D
  | .room => makesRoom g sb
  | .append => appends g sb
  | .free => .ends sb.freeTx
  | .done => .ends sb
  | .sync => .ends { sb with dev := sb.dev.syncBuffers }

/-- Phase A of `agfs_log_flush_locked`. -/
def phaseA : Sb D :=
  { sb with dev := sb.dev.syncSelect (g.logBlock sb.logStart) sb.logPendBlocks }

def phaseB : Sb D :=
  let sb := (({ sb with flags := .dirty } : Sb D).logWriteBitmap g).logWriteSuper false
  { sb with dev := sb.dev.syncSelect 0 (1 + g.bitmapBlocks) }

/-- Phase C. `log_pending` is cleared behind the discards, which do not look at it. -/
def phaseC : Sb D :=
  { sb with dev := sb.dev.syncBuffers, logPending := false, logPendBlocks := 0 }

theorem flushLocked_phases (pending : sb.logPending = true) :
    sb.flushLocked g = phaseC (phaseB g (phaseA g sb)) := by
  rw [flushLocked, if_pos pending]
  rfl

end Cut

/-- The course comes to `sb` when its flushes run without a break. -/
inductive Completes : Course D → Sb D → Prop where
  | ends (sb : Sb D) : Completes (.ends sb) sb
  | flushes {sb sb' : Sb D} {r : Resume} (rest : Completes (r.course g (sb.flushLocked g)) sb') :
      Completes (.flushes sb r) sb'
  | discards {sb sb' : Sb D} {m : Nat → D} {r : Resume} (rest : Completes (r.course g sb) sb') :
      Completes (.discards sb m r) sb'

section Completes

variable {g} (sb : Sb D)

theorem appends_completes :
    Completes g (appends g sb) ((sb.appendEntry g).closeBatch g).freeTx := by
  simp only [appends, closeBatch]
  by_cases full : logBatchBlocks ≤ (sb.appendEntry g).logPendBlocks
  · rw [if_pos full, if_pos full]
    exact .flushes (.ends _)
  · rw [if_neg full, if_neg full]
    exact .ends _

theorem caps_completes :
    Completes g (caps g sb) (((sb.capBatch g sb.tx.length).appendEntry g).closeBatch g).freeTx := by
  unfold caps capBatch
  split
  · exact .flushes (appends_completes _)
  · exact appends_completes sb

theorem makesRoom_completes : Completes g (makesRoom g sb) (sb.commitLogged g) := by
  have carries := flushLocked_carries g sb
  have logEnd := flushLocked_logEnd g sb
  simp only [commitLogged, makeRoom]
  by_cases room : sb.logEnd + sb.tx.length + 1 ≤ g.logLen
  · rw [makesRoom, if_pos room, if_pos room]
    exact caps_completes sb
  rw [makesRoom, if_neg room, if_neg room]
  cases pending : sb.logPending with
  | false =>
    rw [flushLocked_idle g sb pending]
    exact caps_completes sb.wrap
  | true =>
    refine .flushes ?_
    have idle : ¬ (sb.flushLocked g).logPending = true := by simp [flushLocked_eq g sb pending]
    have full : ¬ (sb.flushLocked g).logEnd + (sb.flushLocked g).tx.length + 1 ≤ g.logLen := by
      rw [logEnd, carries.tx]
      exact room
    have tx := carries.tx
    show Completes g (makesRoom g (sb.flushLocked g)) _
    rw [makesRoom, if_neg full, if_neg idle, ← tx]
    exact caps_completes (sb.flushLocked g).wrap

/-- **Cut at its flushes, a commit is the commit of the journal.** -/
theorem commits_completes : Completes g (commits g sb) (sb.commitOutermost g) := by
  unfold commits commitOutermost
  split
  · exact .ends _
  split
  · exact .ends _
  · split
    · exact .discards (.ends _)
    · exact makesRoom_completes sb

end Completes

/-! ## The machine -/

inductive Phase where
  | idle
  /-- Behind phase A. -/
  | logged (r : Resume)
  /-- Behind phase B. -/
  | published (r : Resume)
  /-- In `agfs_flush_discards`, at offset `k` of the `n`-th extent. -/
  | discarding (n k : Nat) (r : Resume)

/-- A mounted volume, with the metadata the last flush was handed. -/
structure Sys (D : Type) where
  sb : Sb D
  extents : Extents
  phase : Phase
  durable : Nat → D

inductive Label (g : Geometry) (D : Type) where
  /-- A transaction with the allocator calls made inside it, up to its first flush. -/
  | tx (calls : List Space.Call) (t : Txn g D)
  /-- An unjournalled `bwrite` of a whole block. -/
  | raw (b : { b : Nat // g.IsMeta b }) (d : D)
  /-- `sync_buffers` by anyone else. -/
  | writeBack
  | flush
  | sync
  /-- A call of the allocator, at any point of a flush as well. -/
  | call (c : Space.Call)
  /-- The flush goes on: to its next phase, its next discard, or what is behind it. -/
  | next
  /-- `agfs_flush_discards` finds no device and keeps the queue, or a device that
  cannot discard and drops it. -/
  | missing (keeps : Bool)

variable {g}

/-- `agfs_bitmap_test`. -/
def used (sb : Sb D) (b : Nat) : Bool := sb.space.test g (BlockFormat.bitsPerBlock D) b

variable (g)

def enter (s : Sys D) : Course D → Sys D
  | .ends sb => { s with sb := sb, phase := .idle }
  | .flushes sb r => { s with sb := phaseA g sb, phase := .logged r, durable := target g sb [] }
  | .discards sb m r => { s with sb := sb, phase := .discarding 0 0 r, durable := m }

/-- `agfs_log_flush_locked` from outside a transaction. -/
def flushFirst (sb : Sb D) (r : Resume) : Course D :=
  if sb.logPending then .flushes sb r else r.course g sb

/-- The next discard, from where the walk is. -/
def upcoming (s : Sys D) (n k : Nat) : Option ((Nat × Nat) × Nat × Nat) :=
  nextDiscard (used (g := g) s.sb) (s.extents.drop n) n k

def goesOn (s : Sys D) : Option (Sys D) :=
  match s.phase with
  | .idle => none
  | .logged r => some { s with sb := phaseB g s.sb, phase := .published r }
  | .published r => some { s with sb := phaseC s.sb, phase := .discarding 0 0 r }
  | .discarding n k r =>
    match upcoming g s n k with
    | some (_, n', k') => some { s with phase := .discarding n' k' r }
    | none => some (enter g { s with extents := [] } (r.course g s.sb))

def step (s : Sys D) : Label g D → Option (Sys D)
  | .call c =>
    some { s with
      sb := s.sb.allocate g [c]
      extents := queue g (BlockFormat.bitsPerBlock D) s.sb.space s.extents c }
  | .next => goesOn g s
  | .missing keeps =>
    match s.phase with
    | .discarding 0 0 r =>
      some (enter g { s with extents := if keeps then s.extents else [] } (r.course g s.sb))
    | _ => none
  | .tx calls t =>
    match s.phase with
    | .idle => some (enter g
        { s with
          extents := queueAll g (BlockFormat.bitsPerBlock D) s.sb.space s.extents calls }
        (commits g (t.recorded (s.sb.allocate g calls)).closing))
    | _ => none
  | .raw b d =>
    match s.phase with
    | .idle => some { s with sb := { s.sb with dev := s.sb.dev.store b d } }
    | _ => none
  | .writeBack =>
    match s.phase with
    | .idle => some { s with sb := { s.sb with dev := s.sb.dev.syncBuffers } }
    | _ => none
  | .flush =>
    match s.phase with
    | .idle => some (enter g s (flushFirst g s.sb .done))
    | _ => none
  | .sync =>
    match s.phase with
    | .idle => some (enter g s (flushFirst g s.sb .sync))
    | _ => none

/-- The discard that the next step makes. -/
def issued (s : Sys D) : Option (Nat × Nat) :=
  match s.phase with
  | .discarding n k _ => (upcoming g s n k).map Prod.fst
  | _ => none

def begin (sb : Sb D) : Sys D := ⟨sb, [], .idle, sb.dev.disk⟩

/-! ## The property and its condition -/

/-- The discard of `count` blocks from `first` on is harmless: they are free, and the
metadata that a crash now and a mount recover does not use them. -/
def Harmless (u : Usage g D) (s : Sys D) (first count : Nat) : Prop :=
  ∃ sb, mount g s.sb.dev.disk = .ok sb ∧ ∀ b, first ≤ b → b < first + count →
    used (g := g) s.sb b = false ∧ ¬ u.inUse sb.dev.disk b

/-- While the discards are made, no free block ahead in the queue is used by the
metadata the flush was handed. -/
def Released (u : Usage g D) (s : Sys D) : Prop :=
  match s.phase with
  | .discarding n k _ => ∀ b, Ahead (s.extents.drop n) k b → used (g := g) s.sb b = false →
      ¬ u.inUse s.durable b
  | _ => True

def SafeLabel (u : Usage g D) (s : Sys D) : Label g D → Prop
  | .tx _ t => ClearOf s.sb t
  | .next => Released g u s
  | _ => True

variable {g} {s : Sys D} {s' : Sys D} {u : Usage g D}

/-! ## What a flush leaves on disk -/

section Disk

variable {sb : Sb D} {published pending : Entries D} {b : Nat}

theorem logEntries_congr {read read' : Nat → D} {stop : Nat}
    (same : ∀ p, read (g.logBlock p) = read' (g.logBlock p)) (fuel pos : Nat) :
    logEntries g read stop fuel pos = logEntries g read' stop fuel pos := by
  induction fuel generalizing pos with
  | zero => rfl
  | succ fuel ih =>
    rw [logEntries, logEntries]
    simp [same, ih]

omit [BlockFormat D] in
theorem selected_linked {dev : Dev D} (linked : dev.DirtyLinked) {w : Nat × D}
    (found : dev.selected b = some w) : b ∈ dev.dirtyList := by
  rw [selected] at found
  split at found
  · rename_i flushable
    rw [Dev.flushable] at flushable
    split at flushable
    · rename_i bf cached
      rw [Bool.and_eq_true] at flushable
      exact linked b bf cached flushable.1
    · cases flushable
  · cases found

/-- Behind the bitmap, a flush leaves what a full sync leaves. -/
theorem flushLocked_above (inv : LogInv g sb published pending) (some : pending ≠ [])
    (above : 1 + g.bitmapBlocks ≤ b) :
    (sb.flushLocked g).dev.disk b = sb.dev.syncBuffers.disk b := by
  have isPending := inv.flagged.mpr some
  rw [syncBuffers_disk]
  by_cases linked : b ∈ sb.dev.dirtyList
  · rw [if_pos linked, flushLocked_disk isPending (.inl linked),
      putAll_of_not_mem _ (not_mem_keys_publishWrites g sb above)]
  rw [if_neg linked]
  obtain ⟨logged, rest, parts⟩ := inv.flush_parts some
  have unlogged : b ∉ keys logged := by
    intro member
    obtain ⟨d, found⟩ := mem_keys.mp member
    rw [parts.logged_eq, List.mem_filterMap] at found
    obtain ⟨c, _, selected⟩ := found
    have here : b = c := congrArg Prod.fst (selected_eq_some selected)
    subst here
    exact linked (selected_linked inv.linked selected)
  have unsynced : b ∉ keys (sb.bitmapImage g ++ rest) := by
    intro member
    obtain ⟨d, found⟩ := mem_keys.mp member
    rcases parts.rest_mem _ found with dirty | low
    · exact linked dirty
    · omega
  rw [parts.final, putAll_of_not_mem _ unsynced, LogInv.publishSuper, put_of_ne _ _ (by omega),
    putAll_of_not_mem _ unlogged]

/-- So does the superblock of a commit that bypasses the log. -/
theorem publishThrough_above (inv : LogInv g sb published pending)
    (above : 1 + g.bitmapBlocks ≤ b) :
    (sb.publishThrough g).dev.disk b = sb.dev.syncBuffers.disk b := by
  have unmarked : b ∉ keys (sb.bitmapImage g) := by
    rw [keys_bitmapImage, List.mem_range'_1]
    omega
  rw [inv.publishThrough_disk, LogInv.publishSuper, put_of_ne _ _ (by omega), putAll_append,
    putAll_of_not_mem _ unmarked, (syncBuffers_wrote sb.dev).disk]

/-- What a disk publishes, when its range is the one in memory and its log blocks are
those of a full sync. -/
theorem publishedEntries_range {disk : Nat → D}
    (first : BlockFormat.logStart (disk 0) = sb.logStart)
    (last : BlockFormat.logEnd (disk 0) = sb.logEnd)
    (same : ∀ b, 1 + g.bitmapBlocks ≤ b → disk b = sb.dev.syncBuffers.disk b) :
    publishedEntries g disk =
      logEntries g sb.dev.syncBuffers.disk sb.logEnd g.logLen sb.logStart := by
  rw [publishedEntries, first, last]
  exact logEntries_congr (fun p => same _ (g.logBlock_ge p)) _ _

variable (inv : LogInv g sb published pending)

include inv

theorem flush_target (some : pending ≠ []) (isMeta : g.IsMeta b) :
    putAll (sb.flushLocked g).dev.disk pending.flatten b = target g sb [] b := by
  obtain ⟨first, last⟩ := inv.flush_range some
  have same : ∀ c, 1 + g.bitmapBlocks ≤ c →
      (sb.flushLocked g).dev.disk c = sb.dev.syncBuffers.disk c :=
    fun c above => flushLocked_above inv some above
  have entries := publishedEntries_range first last same
  rw [publishedEntries_eq (inv.flush some)] at entries
  rw [target, ← entries]
  exact putAll_congr fun _ => same b isMeta.1

theorem commitThrough_disk (isMeta : g.IsMeta b) :
    (sb.commitThrough g).dev.disk b = putAll sb.dev.syncBuffers.disk sb.tx b := by
  have tx : (sb.publishThrough g).tx = sb.tx := by rw [publishThrough_eq]
  have clean : (sb.publishThrough g).dev.dirtyList = [] := by rw [publishThrough_eq]; rfl
  show ((sb.publishThrough g).dev.storeAll (sb.publishThrough g).tx).syncBuffers.disk b = _
  rw [tx, syncBuffers_disk, storeAll_disk, storeAll_peek]
  by_cases written : b ∈ keys sb.tx
  · rw [if_pos (mem_storeAll_dirtyList.mpr (.inr written))]
    exact putAll_of_mem _ _ written
  · rw [if_neg fun linked => ?_, putAll_of_not_mem _ written]
    · exact publishThrough_above inv isMeta.1
    · rw [mem_storeAll_dirtyList] at linked
      exact linked.elim List.not_mem_nil written

theorem through_target (isMeta : ∀ w ∈ sb.tx, g.IsMeta w.1) :
    ∃ published', LogInv g (sb.commitThrough g) published' pending ∧ ∀ b, g.IsMeta b →
      putAll (sb.commitThrough g).dev.disk published'.flatten b = target g sb sb.tx b := by
  obtain ⟨published', through, _⟩ := inv.publishThrough
  obtain ⟨first, last⟩ := inv.publishThrough_range
  have applied := PublishedRange.applied_aside isMeta
  have entries := publishedEntries_range first last fun c above => publishThrough_above inv above
  rw [publishedEntries_eq through] at entries
  refine ⟨published', (through.aside applied).synced, fun b here => ?_⟩
  rw [target, ← entries]
  exact putAll_congr fun _ => commitThrough_disk inv here

end Disk

/-! ## The invariant -/

section Invariant

variable {sb : Sb D} {published pending : Entries D} {r : Resume} {m : Nat → D}

omit [BlockFormat D] in
/-- An outermost commit is under way. -/
structure Closing (sb : Sb D) : Prop where
  depth : sb.txDepth = 0
  poisoned : sb.txPoisoned = false
  draining : sb.logDraining = false

omit [BlockFormat D] in
theorem Closing.quiet (closing : Closing sb) : sb.freeTx.Quiet :=
  ⟨closing.depth, rfl, closing.poisoned, closing.draining⟩

/-- What the rest of the operation needs of the state it finds. -/
def Resumes (g : Geometry) (sb : Sb D) : Resume → Prop
  | .room => Closing sb ∧ EntryOk g sb.tx ∧ sb.tx.length + 1 ≤ g.logLen
  | .append => Closing sb ∧ EntryOk g sb.tx ∧ sb.logEnd + sb.tx.length + 1 ≤ g.logLen
  | .free => Closing sb
  | .done => sb.Quiet
  | .sync => sb.Quiet

/-- The published range ends where the next entry goes, and no batch is pending. -/
structure Closed (sb : Sb D) (pending : Entries D) : Prop where
  none : pending = []
  ends : BlockFormat.logEnd (sb.dev.disk 0) ≤ sb.logEnd

/-- A crash now recovers `m`, and the operation can go on with `r`. -/
def Durable (g : Geometry) (sb : Sb D) (r : Resume) (m : Nat → D) : Prop :=
  ∃ published pending, LogInv g sb published pending ∧ Resumes g sb r ∧
    (r = .room ∨ r = .append → Closed sb pending) ∧
    ∀ b, g.IsMeta b → putAll sb.dev.disk published.flatten b = m b

/-- A flush may begin. -/
def Flushes (g : Geometry) (sb : Sb D) (r : Resume) : Prop :=
  ∃ published pending, LogInv g sb published pending ∧ pending ≠ [] ∧ Resumes g sb r

def Good (g : Geometry) (s : Sys D) : Prop :=
  match s.phase with
  | .idle => s.sb.Quiet ∧ ∃ published pending, LogInv g s.sb published pending
  | .logged r => ∃ sb₀, Flushes g sb₀ r ∧ s.durable = target g sb₀ [] ∧ s.sb = phaseA g sb₀
  | .published r => ∃ sb₀ space, Flushes g sb₀ r ∧ s.durable = target g sb₀ [] ∧
      s.sb = { phaseB g (phaseA g sb₀) with space := space }
  | .discarding _ _ r => Durable g s.sb r s.durable

def CourseOk (g : Geometry) : Course D → Prop
  | .ends sb => sb.Quiet ∧ ∃ published pending, LogInv g sb published pending
  | .flushes sb r => Flushes g sb r
  | .discards sb m r => Durable g sb r m

theorem enter_good {c : Course D} (ok : CourseOk g c) : Good g (enter g s c) := by
  cases c with
  | ends sb => exact ok
  | flushes sb r => exact ⟨sb, ok, rfl, rfl⟩
  | discards sb m r => exact ok

theorem Closed.clear (closed : Closed sb pending) (n : Nat) : LogInv.EntryClear sb n := by
  intro p above _ _
  exact closed.ends.trans above

section

variable (inv : LogInv g sb published pending) (closing : Closing sb) (ok : EntryOk g sb.tx)

include inv closing ok

theorem appends_ok (room : sb.Room g)
    (clear : LogInv.EntryClear sb sb.tx.length) : CourseOk g (appends g sb) := by
  have appended := inv.appended ok room clear
  have closing' : Closing (sb.appendEntry g) :=
    ⟨closing.depth, closing.poisoned, closing.draining⟩
  simp only [appends]
  by_cases full : logBatchBlocks ≤ (sb.appendEntry g).logPendBlocks
  · rw [if_pos full]
    exact ⟨published, pending ++ [sb.tx], appended.aside .same, by simp, closing'⟩
  · rw [if_neg full]
    exact ⟨closing'.quiet, _, _, appended⟩

theorem caps_ok (room : sb.Room g)
    (clear : Direct g sb sb.tx.length → LogInv.EntryClear sb sb.tx.length) :
    CourseOk g (caps g sb) := by
  unfold caps
  by_cases overrun : sb.logPending = true ∧ logBatchBlocks < sb.logPendBlocks + sb.tx.length + 1
  · rw [if_pos overrun]
    exact ⟨published, pending, inv, inv.flagged.mp overrun.1, closing, ok, room⟩
  · rw [if_neg overrun]
    exact appends_ok inv closing ok room (clear ⟨room, overrun⟩)

theorem makesRoom_ok (fits : sb.tx.length + 1 ≤ g.logLen)
    (clear : Direct g sb sb.tx.length → LogInv.EntryClear sb sb.tx.length) :
    CourseOk g (makesRoom g sb) := by
  unfold makesRoom
  by_cases room : sb.logEnd + sb.tx.length + 1 ≤ g.logLen
  · rw [if_pos room]
    exact caps_ok inv closing ok room clear
  rw [if_neg room]
  cases isPending : sb.logPending with
  | true =>
    exact ⟨published, pending, inv, inv.flagged.mp isPending, closing, ok, fits⟩
  | false =>
    obtain rfl : pending = [] := by
      by_contra some
      exact absurd (isPending.symm.trans (inv.flagged.mpr some)) (by decide)
    -- after the wrap nothing is published
    obtain ⟨wrapped, _⟩ := wrap_carefully inv
    refine caps_ok wrapped ⟨closing.depth, closing.poisoned, closing.draining⟩ ok ?_ ?_
    · show 0 + sb.tx.length + 1 ≤ g.logLen
      omega
    · intro _ p _ _ first
      have range := wrapped.onDisk.range
      rw [batchImage_nil, List.length_nil] at range
      omega

end

theorem course_ok (durable : Durable g sb r m) : CourseOk g (r.course g sb) := by
  obtain ⟨published, pending, inv, resumes, closed, _⟩ := durable
  cases r with
  | room =>
    obtain ⟨closing, ok, fits⟩ := resumes
    exact makesRoom_ok inv closing ok fits fun _ => (closed (.inl rfl)).clear _
  | append =>
    obtain ⟨closing, ok, room⟩ := resumes
    exact appends_ok inv closing ok room ((closed (.inr rfl)).clear _)
  | free =>
    exact ⟨Closing.quiet resumes, _, _, inv.aside .same⟩
  | done => exact ⟨resumes, _, _, inv⟩
  | sync =>
    have quiet : sb.Quiet := resumes
    exact ⟨quiet.rest, _, _, inv.synced⟩

omit [BlockFormat D] in
/-- Only the transaction's fields and `log_end` count. -/
theorem resumes_congr {sb' : Sb D} (resumes : Resumes g sb r)
    (depth : sb'.txDepth = sb.txDepth) (tx : sb'.tx = sb.tx)
    (poisoned : sb'.txPoisoned = sb.txPoisoned) (draining : sb'.logDraining = sb.logDraining)
    (logEnd : sb'.logEnd = sb.logEnd) : Resumes g sb' r := by
  have closing : Closing sb → Closing sb' := fun closing =>
    ⟨depth.trans closing.depth, poisoned.trans closing.poisoned, draining.trans closing.draining⟩
  have quiet : sb.Quiet → sb'.Quiet := fun quiet =>
    ⟨depth.trans quiet.depth, tx.trans quiet.tx, poisoned.trans quiet.poisoned,
      draining.trans quiet.draining⟩
  cases r with
  | room =>
    rw [Resumes, tx]
    exact ⟨closing resumes.1, resumes.2⟩
  | append =>
    rw [Resumes, tx, logEnd]
    exact ⟨closing resumes.1, resumes.2⟩
  | free => exact closing resumes
  | done => exact quiet resumes
  | sync => exact quiet resumes

/-- Behind phase C the batch is durable. -/
theorem Flushes.durable (flushes : Flushes g sb r) (space : Space) :
    Durable g { sb.flushLocked g with space := space } r (target g sb []) := by
  obtain ⟨published, pending, inv, some, resumes⟩ := flushes
  have flushed := inv.flush some
  have carries := flushLocked_carries g sb
  have logEnd := flushLocked_logEnd g sb
  have ends := (inv.flush_range some).2
  refine ⟨pending, [], flushed.aside .same,
    resumes_congr resumes carries.depth carries.tx carries.poisoned carries.draining logEnd,
    fun _ => ⟨rfl, ?_⟩, fun b isMeta => flush_target inv some isMeta⟩
  rw [ends, logEnd]

/-- The allocator's fields are not looked at. -/
theorem Durable.allocate (durable : Durable g sb r m)
    (calls : List Space.Call) : Durable g (sb.allocate g calls) r m := by
  obtain ⟨published, pending, inv, resumes, closed, content⟩ := durable
  exact ⟨published, pending, inv.aside .same,
    resumes_congr resumes rfl rfl rfl rfl rfl,
    fun enters => ⟨(closed enters).none, (closed enters).ends⟩, content⟩

theorem Flushes.allocate (flushes : Flushes g sb r) (calls : List Space.Call) :
    Flushes g (sb.allocate g calls) r := by
  obtain ⟨published, pending, inv, some, resumes⟩ := flushes
  exact ⟨published, pending, inv.aside .same, some, resumes_congr resumes rfl rfl rfl rfl rfl⟩

theorem flushFirst_ok (quiet : sb.Quiet) (inv : LogInv g sb published pending)
    (outside : r = .done ∨ r = .sync) : CourseOk g (flushFirst g sb r) := by
  have resumes : Resumes g sb r := by
    rcases outside with rfl | rfl <;> exact quiet
  unfold flushFirst
  cases isPending : sb.logPending with
  | true =>
    exact ⟨published, pending, inv, inv.flagged.mp isPending, resumes⟩
  | false =>
    refine course_ok ⟨published, pending, inv, resumes, fun enters => ?_, fun _ _ => rfl⟩
    rcases outside with rfl | rfl <;> simp at enters

/-- A transaction up to its first flush. -/
theorem commits_ok (quiet : sb.Quiet) (inv : LogInv g sb published pending) {t : Txn g D}
    (clear : ClearOf sb t) : CourseOk g (commits g (t.recorded sb).closing) := by
  have opened : Opened g sb (t.recorded sb) (t.updates.map Prod.fst) :=
    opened_updateAll quiet t.isMeta
  have overflowed := t.recorded_poisoned quiet
  generalize t.recorded sb = sb₁ at *
  have inv₂ : LogInv g sb₁.closing published pending :=
    (inv.aside opened.aside).aside .same
  unfold commits
  cases poisoned : sb₁.txPoisoned with
  | true =>
    have overrun : sb₁.closing.txPoisoned = true := poisoned
    rw [if_pos overrun]
    exact ⟨⟨rfl, rfl, rfl, opened.draining⟩, _, _, inv₂.aside .same⟩
  | false =>
    have clean : ¬ sb₁.closing.txPoisoned = true := by simp [Sb.closing, poisoned]
    have closing : Closing sb₁.closing := ⟨rfl, poisoned, opened.draining⟩
    rw [if_neg clean]
    by_cases empty : sb₁.closing.tx.isEmpty = true
    · rw [if_pos empty]
      exact ⟨closing.quiet, _, _, inv₂.aside .same⟩
    rw [if_neg empty]
    have some : sb₁.tx ≠ [] := by simpa [Sb.closing] using empty
    by_cases large : g.logLen < sb₁.closing.tx.length + 1
    · rw [if_pos large]
      obtain ⟨published', through, content⟩ := through_target inv₂ opened.isMeta
      have resumes := closing
      have carries : Resumes g (sb₁.closing.commitThrough g) .free := by
        refine resumes_congr resumes ?_ ?_ ?_ ?_ ?_ <;>
          simp [commitThrough, publishThrough_eq]
      exact ⟨published', pending, through, carries, fun enters => by simp at enters, content⟩
    · rw [if_neg large]
      have size : sb₁.tx.length = t.size := by
        rw [opened.recorded poisoned, recordAll_length]
        rfl
      refine makesRoom_ok inv₂ closing ⟨some, opened.small, opened.isMeta⟩
        (Nat.le_of_not_lt large) fun direct p above below first => ?_
      have positive : 0 < t.size := size ▸ List.length_pos_iff.mpr some
      simp only [Sb.closing, size, opened.aside.logEnd, opened.aside.logPending,
        opened.aside.logPendBlocks, opened.aside.dev.disk] at direct above below first ⊢
      have before := clear positive (overflowed.symm.trans poisoned) direct
      by_cases stale : Stale sb
      · have := before stale
        omega
      · unfold Stale at stale
        omega

end Invariant

/-! ## Runs -/

theorem goesOn_good (good : Good g s) (taken : goesOn g s = some s') : Good g s' := by
  obtain ⟨sb, extents, phase, durable⟩ := s
  cases phase with
  | idle => cases taken
  | logged r =>
    cases taken
    obtain ⟨sb₀, flushes, handed, shape⟩ := good
    obtain rfl := shape
    exact ⟨sb₀, sb₀.space, flushes, handed, rfl⟩
  | published r =>
    cases taken
    obtain ⟨sb₀, space, flushes, handed, shape⟩ := good
    obtain ⟨_, pending, inv, some, _⟩ := id flushes
    have done : phaseC sb = { sb₀.flushLocked g with space := space } := by
      rw [flushLocked_phases g sb₀ (inv.flagged.mpr some)]
      exact congrArg phaseC shape
    have handed' : durable = target g sb₀ [] := handed
    rw [done, handed']
    exact flushes.durable space
  | discarding n k r =>
    simp only [goesOn] at taken
    split at taken
    · cases taken
      exact good
    · cases taken
      exact enter_good (course_ok good)

theorem call_good (good : Good g s) (c : Space.Call) (extents : Extents) :
    Good g { s with sb := s.sb.allocate g [c], extents := extents } := by
  obtain ⟨sb, _, phase, durable⟩ := s
  cases phase with
  | idle =>
    obtain ⟨quiet, published, pending, inv⟩ := good
    exact ⟨quiet.rest, published, pending, inv.aside .same⟩
  | logged r =>
    obtain ⟨sb₀, flushes, handed, shape⟩ := good
    obtain rfl := shape
    exact ⟨sb₀.allocate g [c], flushes.allocate [c], handed, rfl⟩
  | published r =>
    obtain ⟨sb₀, space, flushes, handed, shape⟩ := good
    obtain rfl : sb = { phaseB g (phaseA g sb₀) with space := space } := shape
    exact ⟨sb₀, _, flushes, handed, rfl⟩
  | discarding n k r => exact Durable.allocate good [c]

theorem step_good {l : Label g D} (good : Good g s)
    (safe : SafeLabel g u s l) (taken : step g s l = some s') : Good g s' := by
  obtain ⟨sb, extents, phase, durable⟩ := s
  cases l with
  | call c =>
    cases taken
    exact call_good good c _
  | next => exact goesOn_good good taken
  | missing keeps =>
    simp only [step] at taken
    split at taken
    · cases taken
      exact enter_good (course_ok good)
    · cases taken
  | tx calls t =>
    cases phase with
    | idle =>
      cases taken
      obtain ⟨quiet, published, pending, inv⟩ := good
      have quiet' : (sb.allocate g calls).Quiet :=
        quiet.rest
      have inv' : LogInv g (sb.allocate g calls) published pending :=
        inv.aside .same
      exact enter_good (commits_ok quiet' inv' safe)
    | _ => cases taken
  | raw b d =>
    cases phase with
    | idle =>
      cases taken
      obtain ⟨quiet, published, pending, inv⟩ := good
      exact ⟨quiet.rest, published, pending, inv.aside ⟨rfl, rfl, rfl, rfl, within_store b.2 d⟩⟩
    | _ => cases taken
  | writeBack =>
    cases phase with
    | idle =>
      cases taken
      obtain ⟨quiet, published, pending, inv⟩ := good
      exact ⟨quiet.rest, published, pending, inv.synced⟩
    | _ => cases taken
  | flush =>
    cases phase with
    | idle =>
      cases taken
      obtain ⟨quiet, _, _, inv⟩ := good
      exact enter_good (flushFirst_ok quiet inv (.inl rfl))
    | _ => cases taken
  | sync =>
    cases phase with
    | idle =>
      cases taken
      obtain ⟨quiet, _, _, inv⟩ := good
      exact enter_good (flushFirst_ok quiet inv (.inr rfl))
    | _ => cases taken

/-- A crash while the discards are made recovers what the flush was handed. -/
theorem issued_harmless (good : Good g s) (released : Released g u s)
    {first count : Nat} (issues : issued g s = some (first, count)) :
    Harmless g u s first count := by
  obtain ⟨sb, extents, phase, durable⟩ := s
  cases phase with
  | discarding n k r =>
    obtain ⟨published, pending, inv, _, _, content⟩ := good
    obtain ⟨sb', mounts, fresh⟩ := mount_publishes g inv.onDisk
    simp only [issued, Option.map_eq_some_iff] at issues
    obtain ⟨⟨run, n', k'⟩, found, same⟩ := issues
    obtain rfl := same
    refine ⟨sb', mounts, fun b above below => ?_⟩
    obtain ⟨free, ahead⟩ := nextDiscard_free found above below
    refine ⟨free, fun recovered => released b ahead free ?_⟩
    refine u.reads _ _ (fun c isMeta => ?_) b recovered
    rw [fresh.onDisk]
    exact content c isMeta
  | _ => cases issues

/-- **Every discard is harmless**, in every session in which no free block ahead in the
queue is used by the metadata that the flush was handed: the discarded blocks are
free, and a crash at the discard recovers metadata that does not use them. -/
theorem discards_safe {u : Usage g D} {disk : Nat → D} {es : List (List (Nat × D))}
    (published : Publishes g disk es) {sb : Sb D} (mounts : mount g disk = .ok sb)
    {ls : List (Label g D)} {s : Sys D}
    (safe : Guarded (step g) (SafeLabel g u) (begin sb) (ls ++ [.next]))
    (ran : run (step g) (begin sb) ls = some s) {first count : Nat}
    (issues : issued g s = some (first, count)) : Harmless g u s first count := by
  have start : Good g (begin sb) := by
    obtain ⟨sb', mounts', fresh⟩ := mount_publishes g published
    obtain rfl := Except.ok.inj (mounts'.symm.trans mounts)
    exact ⟨fresh.quiet, es, [], (fresh_logInv published fresh).1⟩
  have good : Good g s :=
    run_inv (fun _ _ _ good safe taken => step_good good safe taken) start safe.append_left ran
  exact issued_harmless good (safe.append_right ran).1 issues

/-! ## Poles -/

/-- Point block 51 at block 52. -/
def pointTxn : Txn smallGeometry PlainBlock where
  updates := [((51, .data 52), true)]
  isMeta := by decide

/-- Let block 51 point nowhere. -/
def clearTxn : Txn smallGeometry PlainBlock where
  updates := [((51, .data 0), true)]
  isMeta := by decide

/-- Write another metadata block. -/
def otherTxn : Txn smallGeometry PlainBlock where
  updates := [((53, .data 7), true)]
  isMeta := by decide

/-- A flush up to the discards. -/
def flushing : List (Label smallGeometry PlainBlock) := [.flush, .next, .next]

/-- Block 52 is taken and pointed at, and given up again by one transaction that lets the
pointer go as well. -/
def released : List (Label smallGeometry PlainBlock) :=
  .tx [.balloc] pointTxn :: flushing ++ [.next] ++ .tx [.bfree 52] clearTxn :: flushing

/-- Block 52 is freed outside a transaction while block 51 points at it. -/
def freedEarly : List (Label smallGeometry PlainBlock) :=
  .tx [.balloc] pointTxn :: flushing ++ [.next] ++ .call (.bfree 52) :: .tx [] otherTxn :: flushing

open BitmapCrash (pointer formattedDisk formattedSb formattedDisk_published)

/-- Enough for `SafeLabel`: the positions in memory are not behind the disk, and nothing is
queued or nothing is pointed at. -/
def safeTest (s : Sys PlainBlock) : Label smallGeometry PlainBlock → Bool
  | .tx _ _ => decide (BlockFormat.logEnd (s.sb.dev.disk 0) ≤ s.sb.logEnd)
  | .next => s.extents.isEmpty || s.durable 51 == .data 0
  | _ => true

theorem safeTest_sound (s : Sys PlainBlock) (l : Label smallGeometry PlainBlock)
    (passed : safeTest s l = true) : SafeLabel smallGeometry pointer s l := by
  cases l with
  | tx calls t =>
    intro _ _ _ stale
    exact absurd stale.2 (Nat.not_lt.mpr (of_decide_eq_true passed))
  | next =>
    obtain ⟨sb, extents, phase, durable⟩ := s
    cases phase with
    | discarding n k r =>
      intro b ahead _ points
      rw [safeTest, Bool.or_eq_true, List.isEmpty_iff, beq_iff_eq] at passed
      rcases passed with none | nowhere
      · subst none
        rw [List.drop_nil] at ahead
        exact ahead
      · have same := nowhere.symm.trans points.2
        cases same
        exact points.1 rfl
    | _ => trivial
  | _ => trivial

theorem released_safe :
    Guarded (step smallGeometry) (SafeLabel smallGeometry pointer) (begin formattedSb)
      (released ++ [.next]) :=
  Guarded.of_test safeTest_sound (by decide +kernel)

theorem released_issues :
    (run (step smallGeometry) (begin formattedSb) released).any
      (fun s => issued smallGeometry s == some (52, 1)) = true := by
  decide +kernel

/-- A block that its own transaction stopped using is discarded behind the flush. -/
theorem discards_safe_released :
    ∃ s, run (step smallGeometry) (begin formattedSb) released = some s ∧
      issued smallGeometry s = some (52, 1) ∧ Harmless smallGeometry pointer s 52 1 := by
  obtain ⟨s, ran, found⟩ := (Option.any_eq_true _ _).mp released_issues
  rw [beq_iff_eq] at found
  exact ⟨s, ran, found, discards_safe formattedDisk_published rfl released_safe ran found⟩

/-- The mount of the disk at the discard finds block 51 pointing at block 52. -/
def inUseTest (s : Sys PlainBlock) : Bool :=
  issued smallGeometry s == some (52, 1) &&
    match mount smallGeometry s.sb.dev.disk with
    | .ok sb => sb.dev.disk 51 == .data 52
    | .error _ => false

theorem freedEarly_inUse :
    (run (step smallGeometry) (begin formattedSb) freedEarly).any inUseTest = true := by
  decide +kernel

/-- **A block is discarded while durable metadata uses it**: it was freed outside any
transaction, and the next flush, of another transaction, hands it to the device. -/
theorem discarded_in_use :
    ∃ (s : Sys PlainBlock) (sb : Sb PlainBlock), Publishes smallGeometry formattedDisk [] ∧
      mount smallGeometry formattedDisk = .ok formattedSb ∧
      run (step smallGeometry) (begin formattedSb) freedEarly = some s ∧
      issued smallGeometry s = some (52, 1) ∧
      mount smallGeometry s.sb.dev.disk = .ok sb ∧ pointer.inUse sb.dev.disk 52 := by
  obtain ⟨s, ran, found⟩ := (Option.any_eq_true _ _).mp freedEarly_inUse
  rw [inUseTest, Bool.and_eq_true, beq_iff_eq] at found
  obtain ⟨issues, recovered⟩ := found
  cases mounted : mount smallGeometry s.sb.dev.disk with
  | error e =>
    rw [mounted] at recovered
    cases recovered
  | ok sb =>
    rw [mounted, beq_iff_eq] at recovered
    exact ⟨s, sb, formattedDisk_published, rfl, ran, issues, mounted, by decide, recovered⟩

end Argentum.Agfs.Discard
