/-
# Agfs.StaleReplay — what replay puts over newer content

Replay copies every block of the published range home, and a range stays published
after its batch was applied, until a later flush publishes another. A block recorded
there may get a new content without a new log entry: it is freed and handed out as
file data (`bwrite`, unjournalled), or a transaction that overflowed writes it
through. After a crash replay puts the logged content back over it.

A session is a mounted volume under transactions of any size, unjournalled writes,
allocator calls, flushes and write-backs; `last` is what was written to each block
most recently. `replay_keeps_latest` says when a crash at rest recovers exactly that:
unjournalled writes agree with what the log holds for their blocks (`Unlogged`), and
the published range agrees with the pending batch (`Agree`).
-/
import Argentum.Agfs.PublishedRange

namespace Argentum.Agfs.StaleReplay

open Lib.WriteLog Lib.Machine Fs BlockFormat Sb Dev
open Agfs.PublishedRange (Txn ClearOf Committed Ended flushed flushed_some tx_carefully
  flush_carefully fresh_logInv)

/-! ## Reading the log -/

section Reading

variable {D : Type} (g : Geometry) [BlockFormat D]

/-- The entries found from `pos` up to `stop`, each block with its logged content. -/
def logEntries (read : Nat → D) (stop : Nat) : Nat → Nat → Entries D
  | 0, _ => []
  | fuel + 1, pos =>
    if pos < stop then
      let array := read (g.logBlock pos)
      let n := (BlockFormat.count array).toNat
      ((List.range n).map fun i =>
          (runAbs g.agShift (BlockFormat.run array i), read (g.logBlock (pos + 1 + i)))) ::
        logEntries read stop fuel (pos + 1 + n)
    else []

/-- The entries the superblock on disk publishes. -/
def publishedEntries (disk : Nat → D) : Entries D :=
  logEntries g disk (BlockFormat.logEnd (disk 0)) g.logLen (BlockFormat.logStart (disk 0))

/-- The entries of the pending batch, as the cache has them. -/
def pendingEntries (sb : Sb D) : Entries D :=
  if sb.logPending then logEntries g sb.dev.peek sb.logEnd g.logLen sb.logStart else []

variable {g}

theorem logEntries_batch {read : Nat → D} {es : Entries D} {pos fuel : Nat}
    (good : ∀ e ∈ es, EntryOk g e) (holds : Holds read (blocksFrom g pos (batchImage g es)))
    (enough : es.length ≤ fuel) :
    logEntries g read (pos + (batchImage g es).length) fuel pos = es := by
  induction es generalizing pos fuel with
  | nil => cases fuel <;> simp [logEntries]
  | cons e es ih =>
    obtain _ | fuel := fuel
    · simp at enough
    have ok := good e List.mem_cons_self
    obtain ⟨counted, listed⟩ := ok.listed
    rw [batchImage_cons, blocksFrom_append, entryImage_length] at holds
    have head := holds.left _ List.mem_cons_self
    have entry : ((List.range e.length).map fun i =>
        (runAbs g.agShift (BlockFormat.run
          (runArray (e.map fun w => encodeRun g.agShift w.1) : D) i),
          read (g.logBlock (pos + 1 + i)))) = e := by
      refine List.ext_getElem? fun i => ?_
      by_cases inside : i < e.length
      · obtain ⟨w, found⟩ : ∃ w, e[i]? = some w := ⟨_, List.getElem?_eq_getElem inside⟩
        have logged : read (g.logBlock (pos + 1 + i)) = w.2 := by
          refine holds.left (g.logBlock (pos + 1 + i), w.2) (List.mem_cons_of_mem _ ?_)
          refine List.mem_of_getElem? (i := i) ?_
          rw [blocksFrom_getElem?]
          simp [found]
        have home := g.meta_encode (ok.isMeta w (List.mem_of_getElem? found))
        rw [found, List.getElem?_map, List.getElem?_range inside, Option.map_some, listed i w found,
          home, logged]
      · have beyond := Nat.le_of_not_lt inside
        simp [beyond]
    have rest : logEntries g read (pos + 1 + e.length + (batchImage g es).length) fuel
        (pos + 1 + e.length) = es := ih
      (List.forall_mem_of_forall_mem_cons good)
      (by rw [show pos + 1 + e.length = pos + (e.length + 1) by omega]; exact holds.right)
      (by simp only [List.length_cons] at enough; omega)
    have total : pos + (batchImage g (e :: es)).length =
        pos + 1 + e.length + (batchImage g es).length := by
      simp only [batchImage_cons, List.length_append, entryImage_length]
      omega
    rw [total, logEntries, if_pos (by omega)]
    simp [head, counted, Int.toNat_natCast, entry, rest]

variable {sb : Sb D} {published pending : Entries D}

theorem publishedEntries_eq (inv : LogInv g sb published pending) :
    publishedEntries g sb.dev.disk = published := by
  have range := inv.onDisk.range
  have inside := inv.onDisk.inside
  have size := batchImage_length_ge g published
  rw [publishedEntries, range]
  exact logEntries_batch inv.onDisk.good inv.onDisk.holds (by omega)

theorem pendingEntries_eq (inv : LogInv g sb published pending) :
    pendingEntries g sb = pending := by
  by_cases none : pending = []
  · rw [pendingEntries, if_neg (by simp [inv.idle none]), none]
  have upto := inv.upto none
  have inside := inv.inside
  have size := batchImage_length_ge g pending
  rw [pendingEntries, if_pos (inv.flagged.mpr none), upto]
  exact logEntries_batch inv.good (fun w member => inv.ready.peek member) (by omega)

end Reading

/-! ## The machine -/

inductive Op (g : Geometry) (D : Type) where
  | tx (t : Txn g D)
  /-- An unjournalled `bwrite` of a whole block, as the file data path makes it. -/
  | raw (b : { b : Nat // g.IsMeta b }) (d : D)
  /-- Calls of the allocator, `agfs_bfree` among them. -/
  | calls (calls : List Space.Call)
  /-- `agfs_log_flush`. -/
  | flush
  /-- `agfs_log_sync`. -/
  | sync
  /-- `sync_buffers` by anyone else, as the buffer daemon calls it. -/
  | writeBack

/-- A mounted volume, with the content most recently written to each block. -/
structure Session (D : Type) where
  sb : Sb D
  last : Nat → D

/-- The blocks a transaction writes, in order. -/
def writesOf {g : Geometry} {D : Type} (t : Txn g D) : Writes D := t.updates.map Prod.fst

variable {D : Type} {g : Geometry} [BlockFormat D]

def step (r : Session D) : Op g D → Option (Session D)
  | .tx t => some ⟨(t.recorded r.sb).logCommit g, putAll r.last (writesOf t)⟩
  | .raw b d => some ⟨{ r.sb with dev := r.sb.dev.store b d }, put r.last (b, d)⟩
  | .calls calls => some { r with sb := r.sb.allocate g calls }
  | .flush => some { r with sb := r.sb.logFlush g }
  | .sync => some { r with sb := r.sb.logSync g }
  | .writeBack => some { r with sb := { r.sb with dev := r.sb.dev.syncBuffers } }

/-- A session on a volume just mounted: the most recent contents are those on disk. -/
def begin (sb : Sb D) : Session D := ⟨sb, sb.dev.disk⟩

/-! ## The condition -/

/-- The writes `ws` leave no older content in the log: a block of `ws` has the same
content there. Where the pending batch has the block, the batch counts. -/
def Unlogged (published pending : Entries D) (m : Nat → D) (ws : Writes D) :
    Prop :=
  ∀ b ∈ keys ws, putAll (putAll m ws) pending.flatten b = putAll m ws b ∧
    (b ∉ keys pending.flatten → putAll (putAll m ws) published.flatten b = putAll m ws b)

/-- What a transaction does past the log agrees with the log. A commit that is too
large for the log gives up the published range if a batch is pending. -/
def TxUnlogged (sb : Sb D) (t : Txn g D) : Prop :=
  (overflows [] t.updates = true →
    Unlogged (publishedEntries g sb.dev.disk) (pendingEntries g sb) sb.dev.peek (writesOf t)) ∧
  (overflows [] t.updates = false → g.logLen < t.size + 1 →
    Unlogged (if sb.logPending then [] else publishedEntries g sb.dev.disk) (pendingEntries g sb)
      sb.dev.peek (writesOf t))

def SafeOp (r : Session D) : Op g D → Prop
  | .tx t => ClearOf r.sb t ∧ TxUnlogged r.sb t
  | .raw b d =>
    Unlogged (publishedEntries g r.sb.dev.disk) (pendingEntries g r.sb) r.sb.dev.peek [(↑b, d)]
  | _ => True

/-- Blocks in both the published range and the pending batch have one content in the two. -/
def Agree (published pending : Entries D) (m : Nat → D) : Prop :=
  ∀ b ∈ keys pending.flatten, b ∈ keys published.flatten →
    putAll m published.flatten b = putAll m pending.flatten b

/-! ## The cache shows the latest contents -/

section Shown

omit [BlockFormat D]

/-- The open transaction's view: the cache shows `last`, and each recorded copy is what
the cache shows of its block. -/
structure Shown (g : Geometry) (sb : Sb D) (last : Nat → D) : Prop where
  cached : ∀ b, g.IsMeta b → sb.dev.peek b = last b
  copies : ∀ w ∈ sb.tx, sb.dev.peek w.1 = w.2
  empty : sb.txPoisoned = true → sb.tx = []

variable {last : Nat → D} {sb : Sb D}

theorem Shown.update (shown : Shown g sb last)
    (depth : 0 < sb.txDepth) (draining : sb.logDraining = false) (w : Nat × D)
    (kmallocs : Bool) : Shown g (sb.update w kmallocs) (put last w) := by
  have changed : ∀ b, g.IsMeta b → put sb.dev.peek w b = put last w b := by
    intro b isMeta
    by_cases here : b = w.1
    · subst here
      rw [put_same, put_same]
    · rw [put_of_ne _ _ here, put_of_ne _ _ here]
      exact shown.cached b isMeta
  obtain ⟨poisoned, shape⟩ | ⟨clean, _, shape⟩ | ⟨clean, _, shape⟩ :=
    update_cases depth draining w kmallocs <;> rw [shape]
  · refine ⟨fun b isMeta => ?_, fun v member => ?_, shown.empty⟩
    · rw [store_peek]
      exact changed b isMeta
    · rw [shown.empty poisoned] at member
      exact absurd member List.not_mem_nil
  · refine ⟨fun b isMeta => ?_, fun v member => ?_, fun poisoned => ?_⟩
    · rw [touch_peek]
      exact changed b isMeta
    · rw [touch_peek]
      rcases mem_record member with rfl | ⟨old, other⟩
      · exact put_same _ _ _
      · exact (put_of_ne _ _ other).trans (shown.copies v old)
    · exact absurd (clean.symm.trans poisoned) (by decide)
  · have through : ((sb.holding w).writeThrough w.1).peek = put sb.dev.peek w := by
      rw [writeThrough_peek, holding_peek]
      intro v member other _
      rw [holding_peek]
      exact (put_of_ne _ _ other).trans (shown.copies v member)
    refine ⟨fun b isMeta => ?_, List.forall_mem_nil _, fun _ => rfl⟩
    rw [bwrite_peek, through]
    exact changed b isMeta

theorem Shown.updateAll (shown : Shown g sb last)
    (depth : 0 < sb.txDepth) (draining : sb.logDraining = false)
    (us : List ((Nat × D) × Bool)) : Shown g (sb.updateAll us) (putAll last (us.map Prod.fst)) := by
  induction us generalizing sb last with
  | nil => exact shown
  | cons u us ih =>
    obtain ⟨sameDepth, sameMode⟩ := update_modes depth draining u.1 u.2
    exact ih (shown.update depth draining u.1 u.2) (sameDepth ▸ depth) (sameMode.trans draining)

end Shown

/-! ## The log holds nothing older -/

section Latest

omit [BlockFormat D]

variable {published pending : Entries D} {last : Nat → D} {m : Nat → D}
  {ws : Writes D} {b : Nat} {vs : Writes D}

/-- What the batch holds is the latest content, and so is what only the range holds. -/
structure Latest (published pending : Entries D) (last : Nat → D) : Prop where
  batch : ∀ b, putAll last pending.flatten b = last b
  range : ∀ b ∉ keys pending.flatten, putAll last published.flatten b = last b

theorem putAll_stays (same : putAll m ws b = m b) (absent : b ∉ keys vs) :
    putAll (putAll m vs) ws b = putAll m vs b := by
  have base := putAll_of_not_mem m absent
  rw [base]
  exact (putAll_congr fun _ => base).trans same

theorem putAll_rebase {m' : Nat → D} (written : b ∈ keys ws)
    (same : putAll (putAll m ws) vs b = putAll m ws b) :
    putAll (putAll m' ws) vs b = putAll m' ws b := by
  have base := putAll_of_mem m' m written
  rw [base]
  exact (putAll_congr fun _ => base).trans same

variable (latest : Latest published pending last)

include latest

/-- Writes past the log that agree with it. -/
theorem Latest.unlogged (agree : Unlogged published pending m ws) :
    Latest published pending (putAll last ws) := by
  constructor
  · intro b
    by_cases written : b ∈ keys ws
    · exact putAll_rebase written (agree b written).1
    · exact putAll_stays (latest.batch b) written
  · intro b absent
    by_cases written : b ∈ keys ws
    · exact putAll_rebase written ((agree b written).2 absent)
    · exact putAll_stays (latest.range b absent) written

theorem Latest.forget : Latest [] pending last :=
  ⟨latest.batch, fun _ _ => rfl⟩

theorem Latest.flush : Latest (flushed published pending) [] last := by
  refine ⟨fun _ => rfl, fun b _ => ?_⟩
  by_cases none : pending = []
  · subst none
    exact latest.range b List.not_mem_nil
  · rw [flushed_some none]
    exact latest.batch b

theorem Latest.committed {entry : Writes D} {published' pending' : Entries D}
    (committed : Committed published pending entry published' pending') :
    Latest published' pending' (putAll last entry) := by
  have again : ∀ b, putAll (putAll last entry) entry b = putAll last entry b :=
    fun b => congrFun (putAll_idem last entry) b
  have joined : ∀ b, putAll (putAll last entry) (pending ++ [entry]).flatten b =
      putAll last entry b := by
    intro b
    rw [List.flatten_append, putAll_append, List.flatten_singleton]
    by_cases written : b ∈ keys entry
    · exact putAll_of_mem _ _ written
    · rw [putAll_of_not_mem _ written]
      exact putAll_stays (latest.batch b) written
  cases committed with
  | wrapped => exact ⟨by simpa using again, fun _ _ => rfl⟩
  | closed =>
    refine ⟨by simpa using again, fun b absent => ?_⟩
    exact putAll_stays (latest.flush.range b List.not_mem_nil) (by simpa using absent)
  | joined =>
    refine ⟨joined, fun b absent => ?_⟩
    rw [List.flatten_append, keys_append, List.mem_append, not_or, List.flatten_singleton] at absent
    exact putAll_stays (latest.range b absent.1) absent.2
  | filled => exact ⟨fun _ => rfl, fun b _ => joined b⟩

end Latest

/-! ## Runs -/

structure Inv (g : Geometry) (r : Session D) : Prop where
  quiet : r.sb.Quiet
  cached : ∀ b, g.IsMeta b → r.sb.dev.peek b = r.last b
  log : ∃ published pending, LogInv g r.sb published pending ∧ Latest published pending r.last

theorem tx_latest {sb : Sb D} {last : Nat → D} {published pending : Entries D}
    (quiet : sb.Quiet) (inv : LogInv g sb published pending)
    (latest : Latest published pending last) {t : Txn g D} (safe : TxUnlogged sb t)
    {published' pending' : Entries D}
    (ended : Ended g (t.recorded sb) published pending published' pending') :
    Latest published' pending' (putAll last (writesOf t)) := by
  obtain ⟨overflowed, large⟩ := safe
  rw [publishedEntries_eq inv, pendingEntries_eq inv] at overflowed large
  have poison := t.recorded_poisoned quiet
  have opened : Opened g sb (t.recorded sb) (writesOf t) := opened_updateAll quiet t.isMeta
  have written : (t.recorded sb).txPoisoned = false →
      putAll last (t.recorded sb).tx = putAll last (writesOf t) := by
    intro clean
    rw [opened.recorded clean, putAll_recordAll last (by simp)]
    rfl
  cases ended with
  | poisoned overrun => exact latest.unlogged (overflowed (poison.symm.trans overrun))
  | empty clean none =>
    rw [← written clean, none]
    exact latest
  | through clean size which =>
    have tooLarge : g.logLen < t.size + 1 := by
      rw [opened.recorded clean, recordAll_length] at size
      exact size
    have agree := large (poison.symm.trans clean) tooLarge
    by_cases none : pending = []
    · rw [if_neg (by simp [inv.idle none])] at agree
      have kept := latest.unlogged agree
      rcases which with rfl | rfl
      · exact kept.forget
      · subst none
        exact kept
    · rw [if_pos (inv.flagged.mpr none)] at agree
      have kept := latest.forget.unlogged agree
      rcases which with rfl | rfl
      · exact kept
      · rw [flushed_some none]
        exact ⟨kept.batch, fun b absent => putAll_of_not_mem _ absent⟩
  | logged clean committed =>
    rw [← written clean]
    exact latest.committed committed

theorem tx_cached {sb : Sb D} {last : Nat → D} (quiet : sb.Quiet)
    (cached : ∀ b, g.IsMeta b → sb.dev.peek b = last b) (t : Txn g D) {b : Nat}
    (isMeta : g.IsMeta b) :
    ((t.recorded sb).logCommit g).dev.peek b = putAll last (writesOf t) b := by
  have opened : Opened g sb (t.recorded sb) (writesOf t) := opened_updateAll quiet t.isMeta
  have start : Shown g sb.logBegin last := by
    refine ⟨cached, fun w member => ?_, fun _ => by simp [logBegin, quiet.depth]⟩
    simp [logBegin, quiet.depth] at member
  have shown := start.updateAll (Nat.succ_pos _) quiet.draining t.updates
  rw [logCommit_peek opened.depth shown.copies isMeta]
  exact shown.cached b isMeta

theorem step_inv {r r' : Session D} {op : Op g D} (inv : Inv g r) (safe : SafeOp r op)
    (taken : step r op = some r') : Inv g r' := by
  obtain ⟨quiet, cached, published, pending, log, latest⟩ := inv
  cases op with
  | tx t =>
    cases taken
    obtain ⟨quiet', ⟨published', pending', log', ended⟩, _⟩ := tx_carefully quiet log safe.1
    exact ⟨quiet', fun b isMeta => tx_cached quiet cached t isMeta, published', pending',
      log', tx_latest quiet log latest safe.2 ended⟩
  | raw b d =>
    cases taken
    have stored : Aside g r.sb { r.sb with dev := r.sb.dev.store b d } :=
      ⟨rfl, rfl, rfl, rfl, within_store b.2 d⟩
    refine ⟨quiet.rest, fun c isMeta => ?_, published, pending, log.aside stored, ?_⟩
    · show (r.sb.dev.store b d).peek c = put r.last (↑b, d) c
      rw [store_peek]
      by_cases here : c = b
      · subst here
        rw [put_same, put_same]
      · rw [put_of_ne _ _ here, put_of_ne _ _ here]
        exact cached c isMeta
    · have agree : Unlogged _ _ _ _ := safe
      rw [publishedEntries_eq log, pendingEntries_eq log] at agree
      exact latest.unlogged agree
  | calls calls =>
    cases taken
    exact ⟨quiet.rest, cached, published, pending, log.aside .same, latest⟩
  | flush =>
    cases taken
    refine ⟨logFlush_quiet g r.sb quiet, fun b isMeta => ?_, _, [], (flush_carefully log).1,
      latest.flush⟩
    exact (flushLocked_meta isMeta).trans (cached b isMeta)
  | sync =>
    cases taken
    have quiet' := logFlush_quiet g r.sb quiet
    refine ⟨⟨quiet'.depth, quiet'.tx, quiet'.poisoned, quiet'.draining⟩, fun b isMeta => ?_,
      _, [], (flush_carefully log).1.synced, latest.flush⟩
    show ((r.sb.flushLocked g).dev.syncBuffers).peek b = r.last b
    rw [syncBuffers_peek]
    exact (flushLocked_meta isMeta).trans (cached b isMeta)
  | writeBack =>
    cases taken
    refine ⟨quiet.rest, fun b isMeta => ?_, published, pending, log.synced, latest⟩
    rw [syncBuffers_peek]
    exact cached b isMeta

theorem begin_inv {disk : Nat → D} {es : Entries D} (published : Publishes g disk es)
    {sb : Sb D} (fresh : Fresh g disk es sb) : Inv g (begin sb) := by
  refine ⟨fresh.quiet, fun b _ => congrFun fresh.cached b, es, [],
    (fresh_logInv published fresh).1, fun _ => rfl, fun b _ => ?_⟩
  show putAll sb.dev.disk es.flatten b = sb.dev.disk b
  rw [fresh.onDisk, putAll_idem]

/-- **When every write has reached the disk, a crash recovers each block's latest
content** exactly when the published range agrees with the pending batch, in every
session whose writes past the log agree with the log. -/
theorem replay_keeps_latest {disk : Nat → D} {es : List (List (Nat × D))}
    (published : Publishes g disk es) {sb : Sb D} (mounts : mount g disk = .ok sb)
    {ops : List (Op g D)} {r : Session D} (safe : Guarded step SafeOp (begin sb) ops)
    (ran : run step (begin sb) ops = some r)
    (completed : ∀ b, g.IsMeta b → r.sb.dev.disk b = r.last b) :
    (∃ sb', mount g r.sb.dev.disk = .ok sb' ∧ ∀ b, g.IsMeta b → sb'.dev.disk b = r.last b) ↔
      Agree (publishedEntries g r.sb.dev.disk) (pendingEntries g r.sb) r.sb.dev.disk := by
  have start : Inv g (begin sb) := by
    obtain ⟨sb', mounts', fresh⟩ := mount_publishes g published
    obtain rfl := Except.ok.inj (mounts'.symm.trans mounts)
    exact begin_inv published fresh
  have inv : Inv g r :=
    run_inv (fun _ _ _ inv safe taken => step_inv inv safe taken) start safe ran
  obtain ⟨es', batch, log, latest⟩ := inv.log
  rw [publishedEntries_eq log, pendingEntries_eq log]
  obtain ⟨sb', mounts', fresh⟩ := mount_publishes g log.onDisk
  have isMeta : ∀ b ∈ keys batch.flatten, g.IsMeta b := by
    intro b member
    obtain ⟨d, found⟩ := mem_keys.mp member
    obtain ⟨e, inBatch, inEntry⟩ := List.mem_flatten.mp found
    exact (log.good e inBatch).isMeta _ inEntry
  -- the batch's content of a block is the latest one
  have newest : ∀ b ∈ keys batch.flatten, putAll r.sb.dev.disk batch.flatten b = r.last b := by
    intro b member
    rw [putAll_of_mem _ r.last member]
    exact latest.batch b
  constructor
  · rintro ⟨sb'', mounts'', recovers⟩ b inBatch _
    obtain rfl := Except.ok.inj (mounts''.symm.trans mounts')
    rw [← fresh.onDisk, recovers b (isMeta b inBatch), newest b inBatch]
  · intro agree
    refine ⟨sb', mounts', fun b here => ?_⟩
    rw [fresh.onDisk]
    by_cases replayed : b ∈ keys es'.flatten
    · by_cases inBatch : b ∈ keys batch.flatten
      · rw [agree b inBatch replayed, newest b inBatch]
      · rw [putAll_of_mem _ r.last replayed]
        exact latest.range b inBatch
    · rw [putAll_of_not_mem _ replayed]
      exact completed b here

/-! ## Poles -/

/-- A transaction that records one metadata block. -/
def inodeTxn : Txn smallGeometry PlainBlock where
  updates := [((51, .data 1), true)]
  isMeta := by decide

/-- Every metadata block of the small volume has its latest content on disk. -/
def settledTest (r : Session PlainBlock) : Bool :=
  (List.range 100).all fun b => !decide (smallGeometry.IsMeta b) || r.sb.dev.disk b == r.last b

theorem settledTest_sound {r : Session PlainBlock} (passed : settledTest r = true) :
    ∀ b, smallGeometry.IsMeta b → r.sb.dev.disk b = r.last b := by
  intro b isMeta
  have tested := List.all_eq_true.mp passed b (List.mem_range.mpr isMeta.2.1)
  simpa [isMeta] using tested

/-- The logged block and a data block elsewhere. -/
def neighbours : List (Op smallGeometry PlainBlock) :=
  [.tx inodeTxn, .flush, .raw ⟨52, smallGeometry_meta52⟩ (.data 2), .sync]

theorem neighbours_safe : Guarded step SafeOp (begin mountedSb) neighbours := by
  refine ⟨⟨fun _ _ _ stale => absurd stale.1 (by decide), fun overrun => absurd overrun (by decide),
    fun _ large => absurd large (by decide)⟩, fun r taken => ?_⟩
  cases taken
  refine ⟨trivial, fun r taken => ?_⟩
  cases taken
  refine ⟨fun b member => ?_, fun r taken => ⟨trivial, fun _ _ => trivial⟩⟩
  obtain rfl : b = 52 := by simpa using member
  exact ⟨by decide +kernel, fun _ => by decide +kernel⟩

theorem neighbours_settles :
    (run step (begin mountedSb) neighbours).any (fun r => settledTest r && !r.sb.logPending) =
      true := by
  decide +kernel

/-- A data block that the log does not hold keeps its content. -/
theorem replay_keeps_latest_neighbours :
    ∃ r, run step (begin mountedSb) neighbours = some r ∧
      ∃ sb', mount smallGeometry r.sb.dev.disk = .ok sb' ∧
        ∀ b, smallGeometry.IsMeta b → sb'.dev.disk b = r.last b := by
  obtain ⟨r, ran, found⟩ := (Option.any_eq_true _ _).mp neighbours_settles
  rw [Bool.and_eq_true, Bool.not_eq_true'] at found
  have agree : Agree (publishedEntries smallGeometry r.sb.dev.disk)
      (pendingEntries smallGeometry r.sb) r.sb.dev.disk := by
    intro b inBatch
    rw [pendingEntries, if_neg (by simp [found.2])] at inBatch
    exact absurd inBatch List.not_mem_nil
  exact ⟨r, ran, (replay_keeps_latest blankDisk_published mount_blankDisk neighbours_safe ran
    (settledTest_sound found.1)).mpr agree⟩

/-- The logged block is freed, taken again and filled with file data. -/
def reuse : List (Op smallGeometry PlainBlock) :=
  [.calls [.ballocSpecific 51], .tx inodeTxn, .flush, .calls [.bfree 51, .ballocSpecific 51],
    .raw ⟨51, smallGeometry_meta51⟩ (.data 2), .sync]

/-- The data is on disk; a mount of that disk has the logged content instead. -/
def undoneTest (r : Session PlainBlock) : Bool :=
  settledTest r && r.last 51 == .data 2 &&
    match mount smallGeometry r.sb.dev.disk with
    | .ok sb => sb.dev.disk 51 == .data 1
    | .error _ => false

theorem reuse_undone : (run step (begin mountedSb) reuse).any undoneTest = true := by
  decide +kernel

/-- **Replay puts a freed block's logged content over the file data it holds now**, which
was on disk before the crash. -/
theorem replay_undoes_reuse :
    ∃ (r : Session PlainBlock) (sb' : Sb PlainBlock), Publishes smallGeometry blankDisk [] ∧
      mount smallGeometry blankDisk = .ok mountedSb ∧
      run step (begin mountedSb) reuse = some r ∧
      (∀ b, smallGeometry.IsMeta b → r.sb.dev.disk b = r.last b) ∧
      mount smallGeometry r.sb.dev.disk = .ok sb' ∧
      smallGeometry.IsMeta 51 ∧ r.last 51 = .data 2 ∧ sb'.dev.disk 51 = .data 1 := by
  obtain ⟨r, ran, found⟩ := (Option.any_eq_true _ _).mp reuse_undone
  rw [undoneTest, Bool.and_eq_true, Bool.and_eq_true, beq_iff_eq] at found
  obtain ⟨⟨settled, latest⟩, recovered⟩ := found
  cases mounted : mount smallGeometry r.sb.dev.disk with
  | error e =>
    rw [mounted] at recovered
    cases recovered
  | ok sb' =>
    rw [mounted, beq_iff_eq] at recovered
    exact ⟨r, sb', blankDisk_published, mount_blankDisk, ran, settledTest_sound settled, mounted,
      by decide, latest, recovered⟩

end Argentum.Agfs.StaleReplay
