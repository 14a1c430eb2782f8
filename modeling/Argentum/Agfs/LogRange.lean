/-
# Agfs.LogRange — the range on disk and the range in memory

The on-disk superblock publishes one range of the log; the pending batch occupies
another, known only in memory until a flush publishes it. `LogInv` relates the
two for every state the journal reaches, whatever the transactions wrote:

* the published range holds the image of well-formed entries;
* the batch's log blocks are in the cache, or on disk already;
* where the two ranges meet, the disk already holds what the batch would write
  there (`compat`), and nothing else of the log is dirty.

Each operation has one lemma that keeps `LogInv` and one that follows its block
writes; `FlushParts` is that of a flush: three stretches of writes, with the
superblock write between the first and the rest.
-/
import Argentum.Agfs.CommitCache
import Argentum.Agfs.Replay

namespace Argentum.Agfs

open Lib.WriteLog Fs BlockFormat Sb Dev
open List (forall_mem_nil mem_range'_1 mem_append mem_singleton)
open BlockFormat (setLog logStart_setLog logEnd_setLog)

/-! ## Metadata buffers and the open transaction -/

section Recording

variable {D : Type} {g : Geometry} {sb : Sb D}

/-- `sb'` differs from `sb` in metadata buffers and in the transaction's own fields. -/
structure Aside (g : Geometry) (sb sb' : Sb D) : Prop where
  logStart : sb'.logStart = sb.logStart
  logEnd : sb'.logEnd = sb.logEnd
  logPending : sb'.logPending = sb.logPending
  logPendBlocks : sb'.logPendBlocks = sb.logPendBlocks
  dev : sb.dev.Within g.IsMeta sb'.dev

/-- Only fields of the transaction differ. -/
theorem Aside.same {tx : Writes D} {depth : Nat} {poisoned draining : Bool} {flags : SuperFlags}
    {space : Space} : Aside g sb { sb with
      tx := tx, txDepth := depth, txPoisoned := poisoned, logDraining := draining
      flags := flags, space := space } :=
  ⟨rfl, rfl, rfl, rfl, Dev.Within.refl _⟩

theorem Aside.trans {sb₁ sb₂ : Sb D} (first : Aside g sb sb₁)
    (next : Aside g sb₁ sb₂) : Aside g sb sb₂ :=
  ⟨next.logStart.trans first.logStart, next.logEnd.trans first.logEnd,
    next.logPending.trans first.logPending, next.logPendBlocks.trans first.logPendBlocks,
    first.dev.trans next.dev⟩

theorem within_writeThrough {P : Nat → Prop} (blk : Nat)
    (inside : ∀ w ∈ sb.tx, P w.1) : sb.dev.Within P (sb.writeThrough blk) := by
  suffices all : ∀ (ws : Writes D) (dev : Dev D), (∀ w ∈ ws, P w.1) →
      dev.Within P (ws.foldl
        (fun dev w => if w.1 = blk ∨ dev.bufferLocked w.1 then dev else dev.store w.1 w.2) dev) from
    all sb.tx sb.dev inside
  intro ws
  induction ws with
  | nil => exact fun dev _ => Dev.Within.refl dev
  | cons w ws ih =>
    intro dev inside
    rw [List.foldl_cons]
    refine Dev.Within.trans ?_ (ih _ (List.forall_mem_of_forall_mem_cons inside))
    split
    · exact Dev.Within.refl dev
    · exact within_store (inside w List.mem_cons_self) w.2

/-- A transaction open in `sb` that began in `sb₀` and updated the blocks `ws` so far. -/
structure Opened (g : Geometry) (sb₀ sb : Sb D) (ws : Writes D) : Prop where
  aside : Aside g sb₀ sb
  depth : sb.txDepth = 1
  draining : sb.logDraining = false
  small : sb.tx.length ≤ logMaxBlocks
  isMeta : ∀ w ∈ sb.tx, g.IsMeta w.1
  recorded : sb.txPoisoned = false → sb.tx = recordAll [] ws

/-- One more update, whichever way `agfs_log_write_block` takes. -/
theorem Opened.update {sb₀ : Sb D} {ws : Writes D} (opened : Opened g sb₀ sb ws)
    {w : Nat × D} (isMeta : g.IsMeta w.1) (kmallocs : Bool) :
    Opened g sb₀ (sb.update w kmallocs) (ws ++ [w]) := by
  have depth : 0 < sb.txDepth := by rw [opened.depth]; exact Nat.one_pos
  have changed : sb.dev.Within g.IsMeta ((sb.dev.bread w.1).modify w.1 w.2) :=
    (within_bread isMeta).trans (within_modify isMeta w.2)
  obtain ⟨poisoned, shape⟩ | ⟨poisoned, fits, shape⟩ | ⟨poisoned, overrun, shape⟩ :=
    update_cases depth opened.draining w kmallocs
  · rw [shape]
    exact
      { aside := opened.aside.trans ⟨rfl, rfl, rfl, rfl, within_store isMeta w.2⟩
        depth := opened.depth
        draining := opened.draining
        small := opened.small
        isMeta := opened.isMeta
        recorded := fun clean => absurd (poisoned.symm.trans clean) (by decide) }
  · rw [shape]
    refine
      { aside := opened.aside.trans
          ⟨rfl, rfl, rfl, rfl, changed.trans (within_brelse isMeta)⟩
        depth := opened.depth
        draining := opened.draining
        small := ?_
        isMeta := fun v member => ?_
        recorded := fun _ => by simp [opened.recorded poisoned, recordAll] }
    · rcases fits with present | ⟨room, _⟩
      · simpa [record, present] using opened.small
      · by_cases present : w.1 ∈ keys sb.tx
        · simpa [record, present] using opened.small
        · rw [record_length_of_not_mem present]
          exact room
    · rcases mem_keys_record.mp (mem_keys.mpr ⟨v.2, member⟩) with old | new
      · obtain ⟨d, found⟩ := mem_keys.mp old
        exact opened.isMeta (v.1, d) found
      · exact new ▸ isMeta
  · rw [shape]
    have stored : (sb.holding w).dev.Within g.IsMeta ((sb.holding w).writeThrough w.1) :=
      within_writeThrough w.1 opened.isMeta
    have through := changed.trans (stored.trans (within_bwrite isMeta))
    exact
      { aside := opened.aside.trans ⟨rfl, rfl, rfl, rfl, through⟩
        depth := opened.depth
        draining := opened.draining
        small := Nat.zero_le _
        isMeta := forall_mem_nil _
        recorded := by simp }

/-- From `agfs_log_begin` on. -/
theorem opened_updateAll (quiet : sb.Quiet) {us : List ((Nat × D) × Bool)}
    (isMeta : ∀ u ∈ us, g.IsMeta u.1.1) :
    Opened g sb (sb.logBegin.updateAll us) (us.map Prod.fst) := by
  have start : Opened g sb sb.logBegin [] :=
    { aside := .same
      depth := by simp [logBegin, quiet.depth]
      draining := quiet.draining
      small := by simp [logBegin, quiet.depth]
      isMeta := by simp [logBegin, quiet.depth]
      recorded := fun _ => by simp [logBegin, quiet.depth, recordAll] }
  suffices all : ∀ (us : List ((Nat × D) × Bool)) (sb₁ : Sb D) (ws : Writes D),
      Opened g sb sb₁ ws → (∀ u ∈ us, g.IsMeta u.1.1) →
      Opened g sb (sb₁.updateAll us) (ws ++ us.map Prod.fst) from
    all us _ [] start isMeta
  intro us
  induction us with
  | nil =>
    simp [updateAll]
  | cons u us ih =>
    intro sb₁ ws opened isMeta
    have next := ih _ _ (opened.update (isMeta u List.mem_cons_self) u.2)
      (List.forall_mem_of_forall_mem_cons isMeta)
    simpa [updateAll] using next

/-- Whether updates overflow a transaction that holds the blocks `seen`: one more block
comes when 48 are recorded, or `kmalloc` has no memory for its copy. -/
def overflows : List Nat → List ((Nat × D) × Bool) → Bool
  | _, [] => false
  | seen, (w, kmallocs) :: us =>
    if w.1 ∈ seen then overflows seen us
    else if logMaxBlocks ≤ seen.length ∨ kmallocs = false then true
    else overflows (seen ++ [w.1]) us

/-- An overflow poisons the transaction to its end. -/
theorem updateAll_poisoned (depth : 0 < sb.txDepth) (draining : sb.logDraining = false)
    (us : List ((Nat × D) × Bool)) :
    (sb.updateAll us).txPoisoned = (sb.txPoisoned || overflows (keys sb.tx) us) := by
  induction us generalizing sb with
  | nil => simp [updateAll, overflows]
  | cons u us ih =>
    obtain ⟨w, kmallocs⟩ := u
    have first : sb.updateAll ((w, kmallocs) :: us) = (sb.update w kmallocs).updateAll us := rfl
    obtain ⟨sameDepth, sameMode⟩ := update_modes depth draining w kmallocs
    rw [first, ih (sameDepth ▸ depth) (sameMode.trans draining)]
    obtain ⟨poisoned, shape⟩ | ⟨poisoned, fits, shape⟩ | ⟨poisoned, ⟨absent, overrun⟩, shape⟩ :=
      update_cases depth draining w kmallocs <;> rw [shape]
    · simp [poisoned]
    · by_cases present : w.1 ∈ keys sb.tx
      · simp [overflows, present, keys_record]
      · obtain ⟨room, found⟩ := fits.resolve_left present
        have roomy : (keys sb.tx).length < logMaxBlocks := by simpa [keys] using room
        simp [overflows, present, keys_record, found, Nat.not_le.mpr roomy]
    · have full : logMaxBlocks ≤ (keys sb.tx).length ∨ kmallocs = false := by
        simpa [keys] using overrun
      simp [overflows, absent, full]

end Recording

variable {D : Type} {g : Geometry} [BlockFormat D] {b : Nat} {disk : Nat → D} {es : Entries D}

/-! ## Published ranges -/

/-- The log blocks of the published range. -/
def publishedBlocks (g : Geometry) (disk : Nat → D) (es : Entries D) : List Nat :=
  keys (blocksFrom g (BlockFormat.logStart (disk 0)) (batchImage g es))

/-- Writes that repeat the superblock and the published log leave it published. -/
theorem Publishes.putAll (published : Publishes g disk es) {ws : Writes D}
    (repeats : ∀ w ∈ ws, w.1 = 0 ∨ w.1 ∈ publishedBlocks g disk es → w.2 = disk w.1) :
    Publishes g (putAll disk ws) es := by
  have same : ∀ b, b = 0 ∨ b ∈ publishedBlocks g disk es →
      Lib.WriteLog.putAll disk ws b = disk b := by
    intro b fixed
    exact putAll_eq_of_forall (fun v member => repeats (b, v) member fixed) fun _ => rfl
  have zero := same 0 (.inl rfl)
  refine ⟨published.good, ?_, ?_, ?_⟩
  · rw [zero]
    exact published.holds.congr fun b member => same b (.inr member)
  · rw [zero]
    exact published.range
  · rw [zero]
    exact published.inside

theorem mem_publishedBlocks (published : Publishes g disk es) :
    b ∈ publishedBlocks g disk es ↔ ∃ p, logStart (disk 0) ≤ p ∧
      p < logEnd (disk 0) ∧ b = g.logBlock p := by
  rw [published.range]
  constructor
  · exact mem_keys_blocksFrom g
  · rw [publishedBlocks, keys_blocksFrom, mem_range'_1]
    simp only [Geometry.logBlock]
    omega

theorem publishedBlocks_ge (member : b ∈ publishedBlocks g disk es) : 1 + g.bitmapBlocks ≤ b := by
  obtain ⟨p, _, _, rfl⟩ := mem_keys_blocksFrom g member
  exact g.logBlock_ge p

theorem publishedBlocks_not_meta (published : Publishes g disk es) (isMeta : g.IsMeta b) :
    b ∉ publishedBlocks g disk es := by
  rw [mem_publishedBlocks published]
  rintro ⟨p, _, below, rfl⟩
  exact g.logBlock_not_meta (below.trans_le published.inside) isMeta

/-! ## The invariant -/

/-- The log blocks of the pending batch with their contents. -/
def batchBlocks (g : Geometry) (sb : Sb D) (pending : Entries D) : Writes D :=
  blocksFrom g sb.logStart (batchImage g pending)

structure LogInv (g : Geometry) (sb : Sb D) (published pending : Entries D) : Prop where
  onDisk : Publishes g sb.dev.disk published
  good : ∀ e ∈ pending, EntryOk g e
  flagged : sb.logPending = true ↔ pending ≠ []
  size : sb.logPendBlocks = (batchImage g pending).length
  ready : sb.dev.Ready (batchBlocks g sb pending)
  upto : pending ≠ [] → sb.logEnd = sb.logStart + (batchImage g pending).length
  /-- Between batches the positions in memory are an empty range or the published one. -/
  rest : pending = [] → sb.logStart = sb.logEnd ∨
    (sb.logStart = BlockFormat.logStart (sb.dev.disk 0) ∧
      sb.logEnd = BlockFormat.logEnd (sb.dev.disk 0))
  inside : sb.logEnd ≤ g.logLen
  compat : ∀ w ∈ batchBlocks g sb pending, w.1 ∈ publishedBlocks g sb.dev.disk published →
    sb.dev.disk w.1 = w.2
  dirty : ∀ b ∈ sb.dev.dirtyList, g.IsMeta b ∨ b ∈ keys (batchBlocks g sb pending)
  linked : sb.dev.DirtyLinked

namespace LogInv

variable {sb : Sb D} {published pending : Entries D} {logged : Writes D}

section

variable (inv : LogInv g sb published pending) {b : Nat}

include inv

theorem idle (none : pending = []) : sb.logPending = false := by
  rw [← Bool.not_eq_true, inv.flagged, not_not]
  exact none

theorem unused (idle : sb.logPending = false) : sb.logPendBlocks = 0 := by
  have none : pending = [] := by
    by_contra some
    exact absurd (idle.symm.trans (inv.flagged.mpr some)) (by decide)
  rw [inv.size, none]
  rfl

theorem log_lt : sb.logEnd < 2 ^ 64 := by
  have := inv.inside
  have := g.logLen_lt
  omega

theorem start_le : sb.logStart ≤ sb.logEnd := by
  by_cases none : pending = []
  · have range := inv.onDisk.range
    rcases inv.rest none with same | ⟨first, last⟩ <;> omega
  · have := inv.upto none
    omega

/-- The batch lies inside the log, between the positions in memory. -/
theorem batch_position (member : b ∈ keys (batchBlocks g sb pending)) :
    ∃ p, sb.logStart ≤ p ∧ p < sb.logEnd ∧ p < g.logLen ∧ b = g.logBlock p := by
  obtain ⟨p, above, below, here⟩ := mem_keys_blocksFrom g member
  by_cases none : pending = []
  · simp [none] at below
    omega
  · have := inv.upto none
    have := inv.inside
    exact ⟨p, above, by omega, by omega, here⟩

theorem batch_not_meta (isMeta : g.IsMeta b) : b ∉ keys (batchBlocks g sb pending) := by
  intro member
  obtain ⟨p, _, _, below, rfl⟩ := inv.batch_position member
  exact g.logBlock_not_meta below isMeta

theorem batch_ge (member : b ∈ keys (batchBlocks g sb pending)) : 1 + g.bitmapBlocks ≤ b := by
  obtain ⟨p, _, _, _, rfl⟩ := inv.batch_position member
  exact g.logBlock_ge p

/-- Nothing below the log is dirty at rest. -/
theorem dirty_ge (linked : b ∈ sb.dev.dirtyList) : 1 + g.bitmapBlocks ≤ b := by
  rcases inv.dirty b linked with isMeta | member
  · exact isMeta.1
  · exact inv.batch_ge member

end

/-! ## A flush -/

/-- The superblock a flush publishes. -/
def publishSuper (sb : Sb D) : Nat × D :=
  (0, setLog (sb.dev.peek 0) sb.logStart sb.logEnd .dirty)

/-- The writes of a flush: the batch's log blocks, the superblock, everything after. -/
structure FlushParts (g : Geometry) (sb : Sb D) (published pending : Entries D)
    (logged rest : Writes D) : Prop where
  wrote : sb.dev.Wrote (sb.flushLocked g).dev
    (logged ++ publishSuper sb :: (sb.bitmapImage g ++ rest))
  logged_eq : logged = (keys (batchBlocks g sb pending)).filterMap sb.dev.selected
  logged_mem : ∀ w ∈ logged, w.1 ∈ keys (batchBlocks g sb pending)
  logged_same : ∀ w ∈ logged, w.1 ∈ publishedBlocks g sb.dev.disk published → w.2 = sb.dev.disk w.1
  published : Publishes g (put (putAll sb.dev.disk logged) (publishSuper sb)) pending
  rest_same : ∀ w ∈ sb.bitmapImage g ++ rest,
    w.1 = 0 ∨ w.1 ∈ publishedBlocks g (put (putAll sb.dev.disk logged) (publishSuper sb)) pending →
      w.2 = put (putAll sb.dev.disk logged) (publishSuper sb) w.1
  rest_mem : ∀ w ∈ sb.bitmapImage g ++ rest, w.1 ∈ sb.dev.dirtyList ∨ w.1 < 1 + g.bitmapBlocks
  rest_bitmap : ∀ w ∈ sb.bitmapImage g ++ rest, w.1 ≠ 0 → w.1 < 1 + g.bitmapBlocks →
    w ∈ sb.bitmapImage g

/-- The superblock write publishes the batch: its log blocks are all on disk by then. -/
theorem publishes_batch (inv : LogInv g sb published pending) (batch : pending ≠ [])
    (holds : Holds (putAll sb.dev.disk logged) (batchBlocks g sb pending)) :
    Publishes g (put (putAll sb.dev.disk logged) (publishSuper sb)) pending ∧
      logStart (put (putAll sb.dev.disk logged) (publishSuper sb) 0) = sb.logStart ∧
      logEnd (put (putAll sb.dev.disk logged) (publishSuper sb) 0) = sb.logEnd := by
  have upto := inv.upto batch
  have small := inv.log_lt
  have zero : put (putAll sb.dev.disk logged) (publishSuper sb) 0 =
      setLog (sb.dev.peek 0) sb.logStart sb.logEnd .dirty := put_same _ _ _
  have first : logStart (put (putAll sb.dev.disk logged) (publishSuper sb) 0) = sb.logStart := by
    exact logStart_setLog _ _ _ _ (by omega)
  have last : logEnd (put (putAll sb.dev.disk logged) (publishSuper sb) 0) = sb.logEnd := by
    exact logEnd_setLog _ _ _ _ small
  refine ⟨⟨inv.good, ?_, by rw [first, last, upto], by rw [last]; exact inv.inside⟩, first, last⟩
  rw [first]
  intro w member
  have positive : w.1 ≠ 0 := by
    have := inv.batch_ge (mem_keys.mpr ⟨w.2, member⟩)
    omega
  rw [publishSuper, put_of_ne _ _ positive]
  exact holds w member

theorem flush_parts (inv : LogInv g sb published pending) (batch : pending ≠ []) :
    ∃ logged rest, FlushParts g sb published pending logged rest := by
  obtain ⟨rest, wrote, later⟩ := flushLocked_wrote (inv.flagged.mpr batch) inv.size
  obtain ⟨made, holds⟩ := inv.ready.selected
  obtain ⟨publishes, first, _⟩ := inv.publishes_batch batch holds
  have bitmapKey : ∀ w ∈ sb.bitmapImage g, 1 ≤ w.1 ∧ w.1 < 1 + g.bitmapBlocks := by
    intro w member
    have key := mem_keys.mpr ⟨w.2, member⟩
    rw [keys_bitmapImage, mem_range'_1] at key
    exact key
  refine ⟨(keys (batchBlocks g sb pending)).filterMap sb.dev.selected, rest, wrote, rfl,
    fun w member => (made w member).1, ?_, publishes, ?_, ?_, ?_⟩
  · intro w member inRange
    obtain ⟨d, found⟩ := mem_keys.mp (made w member).1
    rw [(made w member).2, inv.ready.peek found]
    exact (inv.compat _ found inRange).symm
  · intro w member fixed
    rcases mem_append.mp member with inBitmap | inRest
    · have bounds := bitmapKey w inBitmap
      rcases fixed with zero | inRange
      · omega
      · have := publishedBlocks_ge inRange
        omega
    · rw [(later w inRest).2]
      rcases fixed with zero | inRange
      · rw [zero, putAll_publishWrites_zero, publishSuper, put_same]
      have beyond := publishedBlocks_ge inRange
      rw [publishedBlocks, first] at inRange
      obtain ⟨d, found⟩ := mem_keys.mp inRange
      have here := publishes.holds
      rw [first] at here
      rw [putAll_of_not_mem _ (not_mem_keys_publishWrites g sb beyond), here _ found,
        inv.ready.peek found]
  · intro w member
    rcases mem_append.mp member with inBitmap | inRest
    · exact .inr (bitmapKey w inBitmap).2
    · exact (later w inRest).1
  · intro w member positive low
    rcases mem_append.mp member with inBitmap | inRest
    · exact inBitmap
    have written := putAll_mem sb.dev.peek ((mem_keys_publishWrites g sb).mpr low)
    rw [← (later w inRest).2] at written
    rcases List.mem_cons.mp written with super | inBitmap
    · exact absurd (congrArg Prod.fst super) positive
    · exact inBitmap

/-- The disk a flush leaves publishes the batch. -/
theorem FlushParts.final {rest : Writes D} (parts : FlushParts g sb published pending logged rest) :
    (sb.flushLocked g).dev.disk =
      putAll (put (putAll sb.dev.disk logged) (publishSuper sb)) (sb.bitmapImage g ++ rest) := by
  rw [parts.wrote.disk, putAll_append, putAll_cons]

section

variable (inv : LogInv g sb published pending)

include inv

/-- After a flush the published range is the one in memory. -/
theorem flush_range (batch : pending ≠ []) :
    logStart ((sb.flushLocked g).dev.disk 0) = sb.logStart ∧
      logEnd ((sb.flushLocked g).dev.disk 0) = sb.logEnd := by
  have small := inv.log_lt
  have order := inv.start_le
  rw [flushLocked_disk (inv.flagged.mpr batch) (.inr (by omega)), putAll_publishWrites_zero]
  exact ⟨logStart_setLog _ _ _ _ (by omega), logEnd_setLog _ _ _ _ small⟩

theorem flush (batch : pending ≠ []) : LogInv g (sb.flushLocked g) pending [] := by
  have isPending := inv.flagged.mpr batch
  obtain ⟨logged, rest, parts⟩ := inv.flush_parts batch
  have onDisk : Publishes g (sb.flushLocked g).dev.disk pending := by
    rw [parts.final]
    exact parts.published.putAll parts.rest_same
  obtain ⟨first, last⟩ := inv.flush_range batch
  have linked := flushLocked_linked (g := g) inv.linked
  rw [flushLocked_eq g sb isPending] at onDisk first last linked ⊢
  exact
    { onDisk := onDisk
      good := by simp
      flagged := by simp
      size := by simp
      ready := forall_mem_nil _
      upto := fun some => absurd rfl some
      rest := fun _ => .inr ⟨first.symm, last.symm⟩
      inside := inv.inside
      compat := forall_mem_nil _
      dirty := forall_mem_nil _
      linked := linked }

/-! ## A full sync -/

/-- What a full sync writes of the published range is there already. -/
theorem dirtyWrites_same {w : Nat × D} (member : w ∈ sb.dev.dirtyWrites)
    (fixed : w.1 = 0 ∨ w.1 ∈ publishedBlocks g sb.dev.disk published) : w.2 = sb.dev.disk w.1 := by
  obtain ⟨linked, held⟩ := mem_dirtyWrites member
  rcases fixed with zero | inRange
  · have := inv.dirty_ge linked
    omega
  · rcases inv.dirty _ linked with isMeta | inBatch
    · exact absurd inRange (publishedBlocks_not_meta inv.onDisk isMeta)
    · obtain ⟨d, found⟩ := mem_keys.mp inBatch
      rw [held, inv.ready.peek found]
      exact (inv.compat _ found inRange).symm

/-- A full sync puts the whole batch on disk. -/
theorem dirtyWrites_batch :
    Holds (putAll sb.dev.disk sb.dev.dirtyWrites) (batchBlocks g sb pending) := by
  intro w member
  obtain ⟨dirty, cached, clean⟩ := inv.ready w member
  rw [← inv.ready.peek member]
  refine putAll_eq_of_forall (fun v written => (mem_dirtyWrites written).2) fun absent => ?_
  cases dirty with
  | false => rw [clean rfl, inv.ready.peek member]
  | true =>
    have linked := inv.linked w.1 _ cached rfl
    refine absurd (mem_keys.mpr ⟨w.2, List.mem_filterMap.mpr ⟨w.1, linked, ?_⟩⟩) absent
    simp [image, cached]

theorem synced : LogInv g { sb with dev := sb.dev.syncBuffers } published pending := by
  have disk := (syncBuffers_wrote sb.dev).disk
  have zero : sb.dev.syncBuffers.disk 0 = sb.dev.disk 0 := by
    rw [syncBuffers_disk, if_neg fun linked => ?_]
    have := inv.dirty_ge linked
    omega
  refine { inv with
    onDisk := ?_
    ready := inv.ready.syncBuffers
    rest := by rw [zero]; exact inv.rest
    compat := ?_
    dirty := forall_mem_nil _
    linked := inv.linked.syncBuffers }
  · rw [disk]
    exact inv.onDisk.putAll fun w member => inv.dirtyWrites_same member
  · intro w member _
    rw [disk]
    exact inv.dirtyWrites_batch w member

/-! ## The wrap -/

theorem wrap_wrote : sb.dev.Wrote sb.wrap.dev
    (sb.dev.dirtyWrites ++ [(0, setLog (sb.dev.peek 0) 0 0 sb.flags)]) := by
  refine syncBuffers_storeAll_wrote sb.dev [(0, _)] (List.nodup_singleton _)
    fun b member linked => ?_
  have low := inv.dirty_ge linked
  rw [keys_cons, keys_nil, mem_singleton] at member
  omega

end

/-- The empty log, published. -/
theorem publishes_wrap (m : Nat → D) (d : D) (flags : SuperFlags) :
    Publishes g (put m (0, setLog d 0 0 flags)) [] := by
  have first := logStart_setLog d 0 0 flags (by omega)
  have last := logEnd_setLog d 0 0 flags (by omega)
  refine ⟨by simp, forall_mem_nil _, ?_, ?_⟩
  · rw [put_same, first, last]
    rfl
  · rw [put_same, last]
    exact Nat.zero_le _

theorem wrap (inv : LogInv g sb published []) : LogInv g sb.wrap [] [] := by
  have onDisk : Publishes g sb.wrap.dev.disk [] := by
    rw [inv.wrap_wrote.disk, putAll_append]
    exact publishes_wrap _ _ _
  exact
    { onDisk := onDisk
      good := inv.good
      flagged := inv.flagged
      size := inv.size
      ready := forall_mem_nil _
      upto := fun some => absurd rfl some
      rest := fun _ => .inl rfl
      inside := Nat.zero_le _
      compat := forall_mem_nil _
      dirty := forall_mem_nil _
      linked := (inv.linked.store _ _).syncBuffers }

/-! ## A step aside -/

theorem aside (inv : LogInv g sb published pending) {sb' : Sb D} (step : Aside g sb sb') :
    LogInv g sb' published pending := by
  have blocks : batchBlocks g sb' pending = batchBlocks g sb pending := by
    rw [batchBlocks, step.logStart, batchBlocks]
  exact
    { onDisk := by rw [step.dev.disk]; exact inv.onDisk
      good := inv.good
      flagged := by rw [step.logPending]; exact inv.flagged
      size := by rw [step.logPendBlocks]; exact inv.size
      ready := by
        rw [blocks]
        refine inv.ready.of_same fun b member => ⟨step.dev.others b fun isMeta => ?_, ?_⟩
        · exact inv.batch_not_meta isMeta member
        · rw [step.dev.disk]
      upto := by rw [step.logStart, step.logEnd]; exact inv.upto
      rest := by rw [step.logStart, step.logEnd, step.dev.disk]; exact inv.rest
      inside := by rw [step.logEnd]; exact inv.inside
      compat := by rw [blocks, step.dev.disk]; exact inv.compat
      dirty := fun b member => by
        rw [blocks]
        exact (step.dev.dirty b member).elim (inv.dirty b) .inl
      linked := step.dev.linked inv.linked }

/-! ## A commit that bypasses the log -/

section

variable (inv : LogInv g sb published pending)

include inv

theorem publishThrough_wrote :
    sb.dev.Wrote (sb.publishThrough g).dev
      (sb.dev.dirtyWrites ++ (sb.bitmapImage g ++ [publishSuper sb])) := by
  rw [publishThrough_eq]
  have low : ∀ b ∈ keys (sb.bitmapImage g ++ [publishSuper sb]), b < 1 + g.bitmapBlocks := by
    intro b member
    rw [keys_append, keys_bitmapImage, mem_append, mem_range'_1] at member
    rcases member with inBitmap | super
    · exact inBitmap.2
    · rw [publishSuper, keys_cons, keys_nil, mem_singleton] at super
      omega
  have nodup : (keys (sb.bitmapImage g ++ [publishSuper sb])).Nodup := by
    rw [keys_append, keys_bitmapImage, List.nodup_append]
    refine ⟨List.nodup_range', List.nodup_singleton _, fun a inBitmap b super same => ?_⟩
    rw [mem_range'_1] at inBitmap
    rw [publishSuper, keys_cons, keys_nil, mem_singleton] at super
    omega
  exact syncBuffers_storeAll_wrote sb.dev _ nodup fun b member linked => by
    have := low b member
    have := inv.dirty_ge linked
    omega

/-- The disk when only the superblock is missing: what the full sync and the bitmap
wrote left the published log and the batch in place. -/
theorem publishThrough_before :
    (∀ w ∈ sb.dev.dirtyWrites ++ sb.bitmapImage g,
      w.1 = 0 ∨ w.1 ∈ publishedBlocks g sb.dev.disk published → w.2 = sb.dev.disk w.1) ∧
    Holds (putAll sb.dev.disk (sb.dev.dirtyWrites ++ sb.bitmapImage g))
      (batchBlocks g sb pending) := by
  have bitmapKey : ∀ b ∈ keys (sb.bitmapImage g), 1 ≤ b ∧ b < 1 + g.bitmapBlocks := by
    intro b key
    rwa [keys_bitmapImage, mem_range'_1] at key
  refine ⟨fun w member fixed => ?_, fun w member => ?_⟩
  · rcases mem_append.mp member with dirty | inBitmap
    · exact inv.dirtyWrites_same dirty fixed
    have bounds := bitmapKey w.1 (mem_keys.mpr ⟨w.2, inBitmap⟩)
    rcases fixed with zero | inRange
    · omega
    · have := publishedBlocks_ge inRange
      omega
  · have beyond := inv.batch_ge (mem_keys.mpr ⟨w.2, member⟩)
    rw [putAll_append, putAll_of_not_mem _ fun key => by have := bitmapKey _ key; omega]
    exact inv.dirtyWrites_batch w member

/-- The superblock then publishes the batch if one is pending, and else an empty range
or the range it published before. -/
theorem publishThrough_publishes :
    ∃ published', Publishes g (sb.publishThrough g).dev.disk published' ∧
      (published' = [] ∨ published' = pending ∨ pending = [] ∧ published' = published) := by
  obtain ⟨same, holds⟩ := inv.publishThrough_before
  rw [inv.publishThrough_wrote.disk, ← List.append_assoc, putAll_append, putAll_cons, putAll_nil]
  by_cases none : pending = []
  · have small := inv.log_lt
    have order := inv.start_le
    have first := logStart_setLog (sb.dev.peek 0) sb.logStart sb.logEnd .dirty (by omega)
    have last := logEnd_setLog (sb.dev.peek 0) sb.logStart sb.logEnd .dirty small
    rcases inv.rest none with empty | ⟨start, stop⟩
    · refine ⟨[], ⟨by simp, forall_mem_nil _, ?_, ?_⟩, .inl rfl⟩
      · rw [publishSuper, put_same, first, last, empty]
        rfl
      · rw [publishSuper, put_same, last]
        exact inv.inside
    · refine ⟨published, ⟨inv.onDisk.good, ?_, ?_, ?_⟩, .inr (.inr ⟨none, rfl⟩)⟩
      · rw [publishSuper, put_same, first]
        intro w member
        have inRange : w.1 ∈ publishedBlocks g sb.dev.disk published := by
          rw [publishedBlocks, ← start]
          exact mem_keys.mpr ⟨w.2, member⟩
        have beyond := publishedBlocks_ge inRange
        rw [put_of_ne _ _ (by omega),
          putAll_eq_of_forall (fun v written => same _ written (.inr inRange))
            fun _ => rfl]
        have here := inv.onDisk.holds
        rw [← start] at here
        exact here w member
      · rw [publishSuper, put_same, first, last, start, stop]
        exact inv.onDisk.range
      · rw [publishSuper, put_same, last]
        exact inv.inside
  · exact ⟨pending, (inv.publishes_batch none holds).1, .inr (.inl rfl)⟩

theorem publishThrough_disk :
    (sb.publishThrough g).dev.disk = put
      (putAll sb.dev.disk (sb.dev.dirtyWrites ++ sb.bitmapImage g)) (publishSuper sb) := by
  rw [inv.publishThrough_wrote.disk, ← List.append_assoc, putAll_append, putAll_cons, putAll_nil]

/-- The published range is then the one in memory. -/
theorem publishThrough_range :
    logStart ((sb.publishThrough g).dev.disk 0) = sb.logStart ∧
      logEnd ((sb.publishThrough g).dev.disk 0) = sb.logEnd := by
  have small := inv.log_lt
  have order := inv.start_le
  rw [inv.publishThrough_disk, publishSuper]
  exact ⟨logStart_setLog _ _ _ _ (by omega), logEnd_setLog _ _ _ _ small⟩

theorem publishThrough :
    ∃ published', LogInv g (sb.publishThrough g) published' pending ∧
      (published' = [] ∨ published' = pending ∨ pending = [] ∧ published' = published) := by
  obtain ⟨published', onDisk, which⟩ := inv.publishThrough_publishes
  obtain ⟨first, last⟩ := inv.publishThrough_range
  have batch : ∀ w ∈ batchBlocks g sb pending, (sb.publishThrough g).dev.disk w.1 = w.2 := by
    intro w member
    have beyond := inv.batch_ge (mem_keys.mpr ⟨w.2, member⟩)
    rw [inv.publishThrough_disk, publishSuper, put_of_ne _ _ (by omega)]
    exact inv.publishThrough_before.2 w member
  have ready : (sb.publishThrough g).dev.Ready (batchBlocks g sb pending) := by
    rw [publishThrough_eq]
    refine (inv.ready.storeAll fun b member low => ?_).syncBuffers
    have beyond := inv.batch_ge member
    rw [keys_append, keys_bitmapImage, mem_append, mem_range'_1, keys_cons, keys_nil,
      mem_singleton] at low
    omega
  rw [publishThrough_eq] at onDisk first last batch ready ⊢
  exact ⟨published',
    { onDisk := onDisk
      good := inv.good
      flagged := inv.flagged
      size := inv.size
      ready := ready
      upto := inv.upto
      rest := fun _ => .inr ⟨first.symm, last.symm⟩
      inside := inv.inside
      compat := fun w member _ => batch w member
      dirty := forall_mem_nil _
      linked := (inv.linked.storeAll _).syncBuffers }, which⟩

end

/-! ## Appending an entry -/

/-- The entry of `n` blocks that goes at `log_end` keeps clear of the published range. -/
def EntryClear (sb : Sb D) (n : Nat) : Prop :=
  ∀ p, sb.logEnd ≤ p → p < sb.logEnd + n + 1 →
    BlockFormat.logStart (sb.dev.disk 0) ≤ p → BlockFormat.logEnd (sb.dev.disk 0) ≤ p

variable (inv : LogInv g sb published pending)

include inv

/-- The new entry goes behind the batch. -/
theorem batchBlocks_append :
    batchBlocks g (sb.appendEntry g).freeTx (pending ++ [sb.tx]) =
      batchBlocks g sb pending ++ blocksFrom g sb.logEnd (entryImage g sb.tx) := by
  have image : batchImage g (pending ++ [sb.tx]) = batchImage g pending ++ entryImage g sb.tx := by
    rw [batchImage_append]
    simp
  have start : (sb.appendEntry g).freeTx.logStart =
      if sb.logPending then sb.logStart else sb.logEnd := rfl
  by_cases none : pending = []
  · subst none
    rw [batchBlocks, start, if_neg (by simp [inv.idle rfl]), image]
    rfl
  · rw [batchBlocks, start, if_pos (inv.flagged.mpr none), image, blocksFrom_append,
      ← inv.upto none, batchBlocks]

theorem batch_not_entry (member : b ∈ keys (batchBlocks g sb pending)) :
    b ∉ keys (blocksFrom g sb.logEnd (entryImage g sb.tx)) := by
  intro new
  obtain ⟨p, _, below, _, rfl⟩ := inv.batch_position member
  obtain ⟨q, above, _, same⟩ := mem_keys_blocksFrom g new
  rw [g.logBlock_inj] at same
  omega

theorem appended (ok : EntryOk g sb.tx)
    (room : sb.Room g) (clear : EntryClear sb sb.tx.length) :
    LogInv g (sb.appendEntry g).freeTx published (pending ++ [sb.tx]) := by
  have size := inv.size
  have txMeta : ∀ b ∈ keys sb.tx, g.IsMeta b := fun b member => by
    obtain ⟨d, found⟩ := mem_keys.mp member
    exact ok.isMeta _ found
  have disk : (sb.appendEntry g).freeTx.dev.disk = sb.dev.disk := by
    simp [appendEntry, freeTx]
  refine
    { onDisk := by rw [disk]; exact inv.onDisk
      good := ?_
      flagged := by simp [appendEntry, freeTx]
      size := by simp [appendEntry, freeTx, batchImage_append, size, Nat.add_assoc]
      ready := ?_
      upto := ?_
      rest := by simp
      inside := room
      compat := ?_
      dirty := ?_
      linked := (inv.linked.storeAll _).storeAll _ }
  · exact List.forall_mem_append.mpr ⟨inv.good, List.forall_mem_singleton.mpr ok⟩
  · rw [inv.batchBlocks_append]
    have old := inv.ready.storeAll fun b member => inv.batch_not_entry member
    have new := staged_storeAll sb.dev (blocksFrom_nodup g sb.logEnd (entryImage g sb.tx))
    refine (old.storeAll fun b member inTx => ?_).append (new.ready.storeAll fun b member inTx => ?_)
    · exact inv.batch_not_meta (txMeta b inTx) member
    · exact entry_not_meta room member (txMeta b inTx)
  · intro _
    show sb.logEnd + sb.tx.length + 1 = (if sb.logPending then sb.logStart else sb.logEnd) +
      (batchImage g (pending ++ [sb.tx])).length
    rw [batchImage_append]
    simp only [List.length_append, batchImage_cons, batchImage_nil, entryImage_length,
      List.append_nil]
    by_cases none : pending = []
    · rw [if_neg (by simp [inv.idle none]), none]
      simp only [batchImage_nil, List.length_nil]
      omega
    · rw [if_pos (inv.flagged.mpr none)]
      have := inv.upto none
      omega
  · rw [inv.batchBlocks_append, disk]
    intro w member inRange
    rcases mem_append.mp member with old | new
    · exact inv.compat w old inRange
    -- the new entry lies outside the published range
    obtain ⟨p, above, below, here⟩ := mem_keys_blocksFrom g (mem_keys.mpr ⟨w.2, new⟩)
    obtain ⟨q, first, last, same⟩ := (mem_publishedBlocks inv.onDisk).mp inRange
    rw [here, g.logBlock_inj] at same
    rw [entryImage_length] at below
    have := clear p above (by omega) (by omega)
    omega
  · intro b member
    rw [inv.batchBlocks_append, keys_append, mem_append]
    simp only [appendEntry, freeTx, mem_storeAll_dirtyList] at member
    rcases member with (old | logged) | inTx
    · exact (inv.dirty b old).imp_right .inl
    · exact .inr (.inr logged)
    · exact .inl (txMeta b inTx)

end LogInv

end Argentum.Agfs
