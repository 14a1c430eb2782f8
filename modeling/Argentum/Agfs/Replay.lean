/-
# Agfs.Replay — mounting a volume and replaying its log

`logReplay` walks the published range entry by entry and copies each logged block
to its home, through the cache; the copies reach the disk in one full sync, after
which the in-memory log is empty. The superblock on disk keeps publishing the
replayed range until the next flush.

The walk needs no more fuel than the log has blocks, since every entry takes at
least one: `replayLoop_fuel`. `mount_publishes`: a disk whose superblock
publishes the log image of the entries `es` (none of them, when the range is
empty) mounts, and is left with `es` applied.
-/
import Argentum.Agfs.Journal

namespace Argentum.Agfs

open Lib.WriteLog Fs BlockFormat Dev
open BlockFormat (count maxRuns bit bitsPerBlock runArray)

section Copies

variable {D : Type} {read : Nat → D} {vs ws : Writes D}

/-- A reader of blocks finds these writes' contents in place. -/
def Holds (read : Nat → D) (ws : Writes D) : Prop := ∀ w ∈ ws, read w.1 = w.2

theorem Holds.left (holds : Holds read (ws ++ vs)) :
    Holds read ws := fun w member => holds w (List.mem_append_left _ member)

theorem Holds.right (holds : Holds read (ws ++ vs)) :
    Holds read vs := fun w member => holds w (List.mem_append_right _ member)

theorem Holds.congr {read' : Nat → D} (holds : Holds read ws)
    (same : ∀ b ∈ keys ws, read' b = read b) : Holds read' ws := fun w member =>
  (same w.1 (mem_keys.mpr ⟨w.2, member⟩)).trans (holds w member)

/-- What a step of the walk leaves of the device it started from: the writes `ws` in
the cache, and nothing else marked. -/
structure Copied (dev dev' : Dev D) (ws : Writes D) : Prop where
  peek : dev'.peek = putAll dev.peek ws
  disk : dev'.disk = dev.disk
  writes : dev'.writes = dev.writes
  coherent : dev.Coherent → dev'.Coherent
  linked : dev.DirtyLinked → dev'.DirtyLinked
  dirty : dev.DirtyLinked → ∀ c ∈ dev'.dirtyList, c ∈ dev.dirtyList ∨ c ∈ keys ws

variable (dev : Dev D) (b : Nat)

theorem Copied.refl : Copied dev dev [] :=
  ⟨rfl, rfl, rfl, id, id, fun _ _ member => .inl member⟩

theorem Copied.trans {dev dev₁ dev₂ : Dev D} (first : Copied dev dev₁ ws)
    (next : Copied dev₁ dev₂ vs) : Copied dev dev₂ (ws ++ vs) where
  peek := by rw [next.peek, first.peek, putAll_append]
  disk := next.disk.trans first.disk
  writes := next.writes.trans first.writes
  coherent before := next.coherent (first.coherent before)
  linked before := next.linked (first.linked before)
  dirty before c member := by
    rw [keys_append, List.mem_append]
    rcases next.dirty (first.linked before) c member with old | new
    · exact (first.dirty before c old).imp_right .inl
    · exact .inr (.inr new)

theorem copied_bread : Copied dev (dev.bread b) [] :=
  ⟨bread_peek dev b, bread_disk dev b, bread_writes dev b, fun c => c.bread b,
    (within_bread (P := fun _ => True) trivial).linked,
    fun _ _ member => .inl (bread_dirtyList dev b ▸ member)⟩

theorem copied_brelse : Copied dev (dev.brelse b) [] :=
  ⟨brelse_peek dev b, brelse_disk dev b, brelse_writes dev b, fun c => c.brelse b,
    (within_brelse (P := fun _ => True) trivial).linked,
    fun linked _ member => .inl (linked.brelse_dirtyList b ▸ member)⟩

theorem copied_store (d : D) : Copied dev (dev.store b d) [(b, d)] :=
  ⟨store_peek dev b d, store_disk dev b d, store_writes dev b d, fun c => c.store b d,
    fun linked => linked.store b d, fun _ c member => by
      rw [store_dirtyList, mem_link] at member
      exact member.imp_right List.mem_singleton.mpr⟩

theorem cold_linked (disk : Nat → D) : (cold disk).DirtyLinked := fun b bf cached => by
  cases cached

/-- Metadata writes leave the log blocks as they are. -/
theorem Holds.putAll_meta (g : Geometry) {pos : Nat} {ds : List D}
    (holds : Holds read (blocksFrom g pos ds)) (inside : pos + ds.length ≤ g.logLen)
    (isMeta : ∀ w ∈ ws, g.IsMeta w.1) : Holds (putAll read ws) (blocksFrom g pos ds) := by
  refine holds.congr fun b member => putAll_of_not_mem read fun written => ?_
  obtain ⟨v, found⟩ := mem_keys.mp written
  obtain ⟨p, _, below, rfl⟩ := mem_keys_blocksFrom g member
  exact g.logBlock_not_meta (by omega) (isMeta _ found)

end Copies

variable {D : Type} (g : Geometry) [BlockFormat D] {sb : Sb D}

variable (array : D) (pos i : Nat) (acc : Dev D × Nat)

/-- One run of an entry: copy the logged block over the real one. -/
def replayRun : Except Errno (Dev D × Nat) :=
  let run := BlockFormat.run array i
  let real := runAbs g.agShift run
  let logged := g.logBlock (pos + 1 + i)
  if run.len ≠ 1 then .ok acc
  else if g.numBlocks ≤ real then .error .eio
  else
    let dev := acc.1.bread logged
    .ok ((dev.store real (dev.peek logged)).brelse logged, acc.2 + 1)

/-- The `n` runs of an entry from the `i`-th on. -/
def replayRuns (array : D) (pos : Nat) : Nat → Nat → Dev D × Nat → Except Errno (Dev D × Nat)
  | 0, _, acc => .ok acc
  | n + 1, i, acc =>
    match replayRun g array pos i acc with
    | .ok acc => replayRuns array pos n (i + 1) acc
    | .error e => .error e

/-- `_CheckRunArray`, as the walk does it. -/
def badArray (pos : Nat) : Bool :=
  count array < 1 || (logMaxRuns : Int) - 1 < count array ||
    maxRuns array != (logMaxRuns : Int) ||
    g.logLen < pos + 1 + (count array).toNat

/-- The walk over the entries from `pos` to the published end. -/
def replayLoop (logEnd : Nat) : Nat → Nat → Dev D × Nat → Except Errno (Dev D × Nat)
  | 0, _, acc => .ok acc
  | fuel + 1, pos, acc =>
    if pos < logEnd ∧ pos < g.logLen then
      let dev := acc.1.bread (g.logBlock pos)
      let array := dev.peek (g.logBlock pos)
      -- a zeroed block ends the log
      if count array = 0 ∧ maxRuns array = 0 then
        .ok (dev.brelse (g.logBlock pos), acc.2)
      else if badArray g array pos then .error .eio
      else
        match replayRuns g array pos (count array).toNat 0 (dev, acc.2) with
        | .ok (dev, replayed) =>
          replayLoop logEnd fuel (pos + 1 + (count array).toNat)
            (dev.brelse (g.logBlock pos), replayed)
        | .error e => .error e
    else .ok acc

/-- `agfs_log_replay`, with the number of blocks it restored. -/
def logReplay (sb : Sb D) : Except Errno (Sb D × Nat) :=
  if g.logLen = 0 ∨ g.logLen ≤ sb.logStart then .ok (sb, 0)
  else if sb.logStart = sb.logEnd then .ok (sb, 0)
  else
    match replayLoop g sb.logEnd g.logLen sb.logStart (sb.dev, 0) with
    | .ok (dev, replayed) =>
      .ok ({ sb with
              dev := dev.syncBuffers
              logStart := 0
              logEnd := 0
              flags := .clean }, replayed)
    | .error e => .error e

variable (disk : Nat → D) (es : Entries D)

/-- The bitmap as its blocks on disk have it, by bit offset. -/
def diskBitmap (off : Nat) : Bool :=
  bit (disk (1 + off / bitsPerBlock D)) (off % bitsPerBlock D)

/-- The journal state `agfs_read_superblock` builds before the replay: positions and
flags from block 0, the bitmap from its blocks, the cache holding what was read. -/
def loadSb : Sb D :=
  { logStart := BlockFormat.logStart (disk 0)
    logEnd := BlockFormat.logEnd (disk 0)
    logPending := false
    logPendBlocks := 0
    tx := []
    txDepth := 0
    txPoisoned := false
    logDraining := false
    flags := BlockFormat.flags (disk 0)
    space :=
      { bitmap := diskBitmap disk
        nextFree := 0
        usedBlocks := BlockFormat.usedBlocks (disk 0) }
    dev := (List.range (1 + g.bitmapBlocks)).foldl (fun dev b => (dev.bread b).brelse b)
      (Dev.cold disk) }

/-- What a read-write mount does after the replay: count the marked blocks, mark the
volume in use. -/
def ready (sb : Sb D) : Sb D :=
  { sb with
    space := sb.space.resyncUsedBlocks g (bitsPerBlock D)
    flags := .dirty }

/-- A read-write mount up to the root inode: load, replay, make ready. -/
def mount : Except Errno (Sb D) :=
  match logReplay g (loadSb g disk) with
  | .ok (sb, _) => .ok (ready g sb)
  | .error e => .error e

/-! ## The walk ends -/

theorem replayLoop_fuel (logEnd : Nat) {fuel pos : Nat} (acc : Dev D × Nat)
    (enough : g.logLen - pos ≤ fuel) :
    replayLoop g logEnd (fuel + 1) pos acc = replayLoop g logEnd fuel pos acc := by
  induction fuel generalizing pos acc with
  | zero =>
    have done : ¬ (pos < logEnd ∧ pos < g.logLen) := by omega
    simp [replayLoop, if_neg done]
  | succ fuel ih =>
    rw [replayLoop, replayLoop]
    by_cases more : pos < logEnd ∧ pos < g.logLen
    · rw [if_pos more]
      dsimp only
      split
      · rfl
      split
      · rfl
      · split
        · exact ih _ (by omega)
        · rfl
    · rw [if_neg more, if_neg more]

/-! ## Replaying a published batch -/

/-- An entry the journal writes: at least one block, no more than a transaction
holds, each of them outside superblock, bitmap and log. -/
structure EntryOk (entry : Writes D) : Prop where
  nonempty : entry ≠ []
  small : entry.length ≤ logMaxBlocks
  isMeta : ∀ w ∈ entry, g.IsMeta w.1

variable {g} in
/-- The run array of an entry counts its blocks and lists them in order. -/
theorem EntryOk.listed {entry : Writes D} (ok : EntryOk g entry) :
    let runs : D := runArray (entry.map fun w => encodeRun g.agShift w.1)
    count runs = entry.length ∧
      ∀ i w, entry[i]? = some w → BlockFormat.run runs i = encodeRun g.agShift w.1 := by
  have capacity : (entry.map fun w => encodeRun g.agShift w.1).length ≤ logMaxRuns := by
    rw [List.length_map]
    exact ok.small.trans (by decide)
  refine ⟨by rw [count_runArray _ capacity, List.length_map], fun i w found => ?_⟩
  exact run_runArray _ _ _ capacity (by simp [found])

/-- One run whose log copy is in place. -/
theorem replayRun_copies {w : Nat × D}
    (isMeta : g.IsMeta w.1) (run : BlockFormat.run array i = encodeRun g.agShift w.1)
    (logged : acc.1.peek (g.logBlock (pos + 1 + i)) = w.2) :
    ∃ dev n, replayRun g array pos i acc = .ok (dev, n) ∧ Copied acc.1 dev [w] := by
  have home := g.meta_encode isMeta
  have single : (encodeRun g.agShift w.1).len = 1 := rfl
  have inRange := Nat.not_le.mpr isMeta.2.1
  refine ⟨((acc.1.bread (g.logBlock (pos + 1 + i))).store w.1 w.2).brelse
    (g.logBlock (pos + 1 + i)), acc.2 + 1, ?_, ?_⟩
  · simp only [replayRun, run, home, single, ne_eq, not_true_eq_false, if_false, if_neg inRange,
      bread_peek, logged]
  · have copied := (copied_bread acc.1 (g.logBlock (pos + 1 + i))).trans
      ((copied_store (acc.1.bread (g.logBlock (pos + 1 + i))) w.1 w.2).trans
        (copied_brelse _ (g.logBlock (pos + 1 + i))))
    simpa using copied

/-- The runs of an entry, from the `i`-th on. -/
theorem replayRuns_copies (ws : Writes D)
    (inside : pos + 1 + i + ws.length ≤ g.logLen) (isMeta : ∀ w ∈ ws, g.IsMeta w.1)
    (runs : ∀ j w, ws[j]? = some w → run array (i + j) = encodeRun g.agShift w.1)
    (holds : Holds acc.1.peek (blocksFrom g (pos + 1 + i) (ws.map Prod.snd))) :
    ∃ dev n, replayRuns g array pos ws.length i acc = .ok (dev, n) ∧ Copied acc.1 dev ws := by
  induction ws generalizing i acc with
  | nil => exact ⟨acc.1, acc.2, rfl, Copied.refl acc.1⟩
  | cons w ws ih =>
    have first := holds _ List.mem_cons_self
    obtain ⟨dev, n, ran, copied⟩ := replayRun_copies g array pos i acc
      (isMeta w List.mem_cons_self) (runs 0 w rfl) first
    have rest : Holds dev.peek (blocksFrom g (pos + 1 + (i + 1)) (ws.map Prod.snd)) := by
      rw [copied.peek]
      refine Holds.putAll_meta g (List.forall_mem_of_forall_mem_cons holds) ?_ ?_
      · simp only [List.length_map, List.length_cons] at inside ⊢
        omega
      · intro v member
        rw [List.mem_singleton] at member
        exact member ▸ isMeta w List.mem_cons_self
    obtain ⟨dev', n', ran', copied'⟩ := ih (i + 1) (dev, n)
      (by simp only [List.length_cons] at inside; omega)
      (List.forall_mem_of_forall_mem_cons isMeta)
      (fun j v found => by
        have shifted := runs (j + 1) v (by simpa using found)
        rwa [show i + (j + 1) = i + 1 + j by omega] at shifted)
      rest
    exact ⟨dev', n', by rw [List.length_cons, replayRuns, ran]; exact ran', copied.trans copied'⟩

/-- The walk over a batch image restores the batch. -/
theorem replayLoop_copies (pos fuel : Nat) (acc : Dev D × Nat) (es : Entries D)
    (good : ∀ e ∈ es, EntryOk g e) (inside : pos + (batchImage g es).length ≤ g.logLen)
    (holds : Holds acc.1.peek (blocksFrom g pos (batchImage g es))) (enough : es.length ≤ fuel) :
    ∃ dev n, replayLoop g (pos + (batchImage g es).length) fuel pos acc = .ok (dev, n) ∧
      Copied acc.1 dev es.flatten := by
  induction es generalizing pos fuel acc with
  | nil =>
    refine ⟨acc.1, acc.2, ?_, Copied.refl acc.1⟩
    cases fuel with
    | zero => rfl
    | succ fuel => simp [replayLoop]
  | cons e es ih =>
    obtain _ | fuel := fuel
    · simp at enough
    have ok := good e List.mem_cons_self
    have size : 0 < e.length := List.length_pos_iff.mpr ok.nonempty
    obtain ⟨counted, listed⟩ := ok.listed
    have total : (batchImage g (e :: es)).length = e.length + 1 + (batchImage g es).length := by
      simp
    rw [total] at inside ⊢
    rw [batchImage_cons, blocksFrom_append, entryImage_length] at holds
    -- the entry's first block is its run array
    have head := holds.left _ List.mem_cons_self
    have wide : maxRuns (runArray (e.map fun w => encodeRun g.agShift w.1) : D) = logMaxRuns :=
      maxRuns_runArray _
    have sound : badArray g
        (runArray (e.map fun w => encodeRun g.agShift w.1) : D) pos = false := by
      have bound : e.length ≤ 48 := ok.small
      simp only [badArray, counted, wide, logMaxRuns, bne_self_eq_false, Bool.or_false,
        Bool.or_eq_false_iff, decide_eq_false_iff_not]
      omega
    obtain ⟨dev, n, ran, copied⟩ := replayRuns_copies g
      (runArray (e.map fun w => encodeRun g.agShift w.1)) pos 0
      (acc.1.bread (g.logBlock pos), acc.2) e (by omega) ok.isMeta
      (fun j w found => by rw [Nat.zero_add]; exact listed j w found)
      (by
        rw [bread_peek]
        exact List.forall_mem_of_forall_mem_cons holds.left)
    have entryCopied : Copied acc.1 (dev.brelse (g.logBlock pos)) e := by
      have all := ((copied_bread acc.1 (g.logBlock pos)).trans copied).trans
        (copied_brelse dev (g.logBlock pos))
      simpa using all
    have rest : Holds (dev.brelse (g.logBlock pos)).peek
        (blocksFrom g (pos + 1 + e.length) (batchImage g es)) := by
      rw [entryCopied.peek, show pos + 1 + e.length = pos + (e.length + 1) by omega]
      exact Holds.putAll_meta g holds.right (by omega) ok.isMeta
    obtain ⟨dev', n', ran', copied'⟩ := ih (pos + 1 + e.length) fuel
      (dev.brelse (g.logBlock pos), n) (List.forall_mem_of_forall_mem_cons good)
      (by omega) rest (by simp only [List.length_cons] at enough; omega)
    refine ⟨dev', n', ?_, entryCopied.trans copied'⟩
    have more : pos < pos + (e.length + 1 + (batchImage g es).length) ∧ pos < g.logLen := by omega
    have alive : ¬ ((e.length : Int) = 0 ∧ (logMaxRuns : Int) = 0) := by
      rintro ⟨empty, _⟩
      omega
    rw [replayLoop, if_pos more]
    simp only [bread_peek, head, counted, wide, if_neg alive, sound, Int.toNat_natCast, ran]
    rw [show pos + (e.length + 1 + (batchImage g es).length) =
      pos + 1 + e.length + (batchImage g es).length by omega]
    exact ran'

/-! ## Mounting -/

/-- Loading reads: the disk is untouched and nothing is marked. -/
theorem loadSb_copied : Copied (cold disk) (loadSb g disk).dev [] := by
  suffices all : ∀ (bs : List Nat) (dev : Dev D),
      Copied dev (bs.foldl (fun dev b => (dev.bread b).brelse b) dev) [] from all _ _
  intro bs
  induction bs with
  | nil => exact fun dev => Copied.refl dev
  | cons b bs ih =>
    exact fun dev => ((copied_bread dev b).trans (copied_brelse _ b)).trans (ih _)

/-- The disk publishes, and holds, the log image of the entries `es`. -/
structure Publishes : Prop where
  good : ∀ e ∈ es, EntryOk g e
  holds : Holds disk (blocksFrom g (BlockFormat.logStart (disk 0)) (batchImage g es))
  range : BlockFormat.logEnd (disk 0) = BlockFormat.logStart (disk 0) + (batchImage g es).length
  inside : BlockFormat.logEnd (disk 0) ≤ g.logLen

theorem batchImage_length_ge : es.length ≤ (batchImage g es).length := by
  induction es with
  | nil => simp
  | cons e es ih =>
    rw [batchImage_cons, List.length_append, entryImage_length, List.length_cons]
    omega

theorem logReplay_empty (empty : sb.logStart = sb.logEnd) : logReplay g sb = .ok (sb, 0) := by
  rw [logReplay, if_pos empty, ite_self]

theorem logReplay_walk (inside : sb.logStart < g.logLen)
    (nonempty : sb.logStart ≠ sb.logEnd) {dev : Dev D} {n : Nat}
    (ran : replayLoop g sb.logEnd g.logLen sb.logStart (sb.dev, 0) = .ok (dev, n)) :
    logReplay g sb =
      .ok ({ sb with dev := dev.syncBuffers, logStart := 0, logEnd := 0, flags := .clean }, n) := by
  have inLog : ¬ (g.logLen = 0 ∨ g.logLen ≤ sb.logStart) := by omega
  rw [logReplay, if_neg inLog, if_neg nonempty, ran]

/-- What a mount leaves of a disk that published `es`: an empty log in memory, a clean
cache, and a disk with `es` applied, by writes to the blocks of `es` alone. -/
structure Fresh (sb : Sb D) : Prop where
  quiet : sb.Quiet
  idle : sb.logPending = false
  unused : sb.logPendBlocks = 0
  empty : sb.logStart = sb.logEnd
  inside : sb.logEnd ≤ g.logLen
  wrote : ∃ ws, (loadSb g disk).dev.Wrote sb.dev ws ∧ ∀ w ∈ ws, w.1 ∈ keys es.flatten
  onDisk : sb.dev.disk = putAll disk es.flatten
  clean : sb.dev.dirtyList = []
  linked : sb.dev.DirtyLinked
  cached : sb.dev.peek = sb.dev.disk
  bitmap : sb.space.bitmap = diskBitmap disk

/-- **Mounting a disk that publishes `es` leaves it with `es` applied.** -/
theorem mount_publishes {disk : Nat → D} {es : Entries D}
    (published : Publishes g disk es) : ∃ sb, mount g disk = .ok sb ∧ Fresh g disk es sb := by
  have loaded := loadSb_copied g disk
  have linked := loaded.linked (cold_linked disk)
  have coherent := loaded.coherent fun _ _ => rfl
  have clean := List.eq_nil_iff_forall_not_mem.mpr fun c member =>
      (loaded.dirty (cold_linked disk) c member).elim List.not_mem_nil List.not_mem_nil
  have range := published.range
  have inside := published.inside
  cases es with
  | nil =>
    have empty : (loadSb g disk).logStart = (loadSb g disk).logEnd := by
      simpa [loadSb] using range.symm
    refine ⟨ready g (loadSb g disk), by rw [mount, logReplay_empty g empty], ?_⟩
    exact
      { quiet := ⟨rfl, rfl, rfl, rfl⟩
        idle := rfl
        unused := rfl
        empty := empty
        inside := inside
        wrote := ⟨[], Dev.Wrote.none rfl rfl, by simp⟩
        onDisk := loaded.disk
        clean := clean
        linked := linked
        cached := loaded.peek.trans loaded.disk.symm
        bitmap := rfl }
  | cons e es =>
    have size := batchImage_length_ge g (e :: es)
    rw [List.length_cons] at size
    have peek : (loadSb g disk).dev.peek = disk := loaded.peek
    obtain ⟨dev, n, ran, copied⟩ := replayLoop_copies g (BlockFormat.logStart (disk 0)) g.logLen
      ((loadSb g disk).dev, 0) (e :: es) published.good (by omega)
      (by rw [peek]; exact published.holds) (by rw [List.length_cons]; omega)
    rw [← range] at ran
    have walked : logReplay g (loadSb g disk) = .ok ({ loadSb g disk with
        dev := dev.syncBuffers, logStart := 0, logEnd := 0, flags := .clean }, n) :=
      logReplay_walk g (show BlockFormat.logStart (disk 0) < g.logLen by omega)
        (show BlockFormat.logStart (disk 0) ≠ BlockFormat.logEnd (disk 0) by omega) ran
    have synced : dev.syncBuffers.disk = putAll disk (e :: es).flatten := by
      rw [(copied.coherent coherent).syncBuffers_disk, copied.peek, peek]
    refine ⟨ready g { loadSb g disk with
      dev := dev.syncBuffers, logStart := 0, logEnd := 0, flags := .clean },
      by rw [mount, walked], ?_⟩
    refine
      { quiet := ⟨rfl, rfl, rfl, rfl⟩
        idle := rfl
        unused := rfl
        empty := rfl
        inside := Nat.zero_le _
        wrote := ?_
        onDisk := synced
        clean := rfl
        linked := (copied.linked linked).syncBuffers
        cached := (syncBuffers_peek dev).trans (copied.peek.trans (by rw [peek]; exact synced.symm))
        bitmap := rfl }
    refine ⟨dev.dirtyWrites, ?_, fun w member => ?_⟩
    · exact (Dev.Wrote.none copied.writes copied.disk).trans (syncBuffers_wrote dev)
    · have marked := copied.dirty linked _ (mem_dirtyWrites member).1
      rw [clean] at marked
      exact marked.resolve_left List.not_mem_nil

theorem blankDisk_published : Publishes smallGeometry blankDisk [] :=
  ⟨by simp, List.forall_mem_nil _, rfl, by decide⟩

/-- The volume as it is made, mounted. -/
def mountedSb : Sb PlainBlock := ready smallGeometry (loadSb smallGeometry blankDisk)

theorem mount_blankDisk : mount smallGeometry blankDisk = .ok mountedSb := rfl

end Argentum.Agfs
