/-
# Agfs.CrashRecovery — what a crash can cost

A session starts on a mounted volume with an empty log and runs transactions and
flush barriers; the crash comes after any number of the block writes of one of
them. `crash_recovery` says what the next mount finds: the metadata after a prefix
of the committed transactions, no shorter than what the last completed barrier
covered.

It holds of every session in which no commit wraps the log over a pending batch
that it shares a block with (`SafeOp`). That commit flushes the batch first, but
the shared block's buffer already holds the content of the transaction being
committed; phase C writes it, and the wrap then gives up the only log that could
undo it. `wrap_tears_transaction` is such a crash.
-/
import Argentum.Agfs.Batch
import Argentum.Lib.Machine
import Mathlib.Tactic.IntervalCases

namespace Argentum.Agfs.CrashRecovery

open Lib.WriteLog Lib.Machine Fs

/-- A transaction: writes to metadata blocks, at most as many of them as one
transaction records. -/
structure Tx (g : Geometry) (D : Type) where
  writes : Writes D
  isMeta : ∀ w ∈ writes, g.IsMeta w.1
  fits : (keys writes).toFinset.card ≤ logMaxBlocks

inductive Op (g : Geometry) (D : Type) where
  | tx (t : Tx g D)
  /-- `agfs_log_flush`. -/
  | barrier

/-- The journal with the history of the session: the transactions committed so far
and how many of them the last completed barrier covered. -/
structure Session (g : Geometry) (D : Type) where
  sb : Sb D
  txs : List (Tx g D)
  durable : Nat

variable {D : Type} {g : Geometry} [BlockFormat D] {disk : Nat → D} {r : Session g D} {sb : Sb D}

def step (r : Session g D) : Op g D → Option (Session g D)
  | .tx t => some { r with sb := r.sb.transact g t.writes, txs := r.txs ++ [t] }
  | .barrier => some { r with sb := r.sb.logFlush g, durable := r.txs.length }

/-- The session that has just mounted. -/
def begin (sb : Sb D) : Session g D := { sb := sb, txs := [], durable := 0 }

/-- The blocks after a list of transactions. -/
def content (disk : Nat → D) (txs : List (Tx g D)) : Nat → D :=
  putAll disk (txs.flatMap Tx.writes)

omit [BlockFormat D] in
theorem content_snoc (disk : Nat → D) (txs : List (Tx g D)) (t : Tx g D) :
    content disk (txs ++ [t]) = putAll (content disk txs) t.writes := by
  simp [content, putAll_append]

/-- A mounted volume whose log is empty, on disk and in memory, with a clean cache. -/
structure Mounted (g : Geometry) (sb : Sb D) : Prop where
  quiet : sb.Quiet
  idle : sb.logPending = false
  unused : sb.logPendBlocks = 0
  empty : sb.logStart = sb.logEnd
  inside : sb.logEnd ≤ g.logLen
  published : Publishes g sb.dev.disk []
  clean : sb.dev.dirtyList = []
  linked : sb.dev.DirtyLinked
  cached : sb.dev.peek = sb.dev.disk

/-- What a mount of a volume with an empty log gives. -/
theorem mounted_of_empty (published : Publishes g disk []) :
    ∃ sb, mount g disk = .ok sb ∧ Mounted g sb ∧ sb.dev.disk = disk := by
  obtain ⟨sb, mounts, fresh⟩ := mount_publishes g published
  exact ⟨sb, mounts,
    { quiet := fresh.quiet
      idle := fresh.idle
      unused := fresh.unused
      empty := fresh.empty
      inside := fresh.inside
      published := by rwa [fresh.onDisk]
      clean := fresh.clean
      linked := fresh.linked
      cached := fresh.cached }, fresh.onDisk⟩

/-- Nothing is pending, and what is on disk is all there is. -/
theorem Mounted.inv (mounted : Mounted g sb) : Inv g sb ⟨sb.dev.disk, sb.dev.disk, [], []⟩ [] where
  onDisk := mounted.published
  good := by simp
  flagged := by simp [mounted.idle]
  size := by simp [mounted.unused]
  ready := List.forall_mem_nil _
  upto some := absurd rfl some
  rest _ := .inl mounted.empty
  inside := mounted.inside
  compat := List.forall_mem_nil _
  dirty := by simp [mounted.clean]
  linked := mounted.linked
  staged := List.forall_mem_nil _
  settled _ _ := rfl
  untouched _ _ _ _ := rfl
  current _ _ := rfl
  cached b _ := by simp [mounted.quiet.tx, mounted.cached]
  ahead := .inl rfl
  batch := by simp [mounted.clean]
  marked := List.forall_mem_nil _

/-- The commit does not wrap the log over a pending batch it shares a block with. -/
def SafeOp (r : Session g D) : Op g D → Prop
  | .tx t => Inv.SafeWrap g r.sb (keys t.writes) (keys t.writes).toFinset.card
  | .barrier => True

/-! ## The session invariant -/

/-- The journal invariant, with both contents read off the history. -/
def Sound (disk : Nat → D) (r : Session g D) : Prop :=
  r.sb.Quiet ∧ ∃ v k, Inv g r.sb v [] ∧ v.settled = content disk (r.txs.take k) ∧
    v.current = content disk r.txs ∧ r.durable ≤ k ∧ k ≤ r.txs.length

theorem sound_begin (mounted : Mounted g sb) : Sound sb.dev.disk (begin sb : Session g D) :=
  ⟨mounted.quiet, _, 0, mounted.inv, rfl, rfl, Nat.le_refl _, Nat.le_refl _⟩

/-- What a crash may leave: a prefix between the last barrier and now. -/
def Recoverable (disk : Nat → D) (durable : Nat) (txs : List (Tx g D)) (m : Nat → D) : Prop :=
  ∃ p, durable ≤ p ∧ p ≤ txs.length ∧ RecoversTo g m (content disk (txs.take p))

theorem recoverable_of {m target : Nat → D} {durable k : Nat} {txs : List (Tx g D)}
    (recovers : RecoversTo g m target) (same : target = content disk (txs.take k))
    (low : durable ≤ k) (high : k ≤ txs.length) : Recoverable disk durable txs m :=
  ⟨k, low, high, same ▸ recovers⟩

theorem barrier_sound (sound : Sound disk r) :
    Sound disk { r with sb := r.sb.logFlush g, durable := r.txs.length } ∧
      r.sb.dev.Through (Recoverable disk r.durable r.txs) (r.sb.logFlush g).dev := by
  obtain ⟨quiet, v, k, inv, settled, current, low, high⟩ := sound
  have full : v.current = content disk (r.txs.take r.txs.length) := by rw [List.take_length, current]
  refine ⟨⟨Sb.logFlush_quiet g r.sb quiet, ?_⟩, ?_⟩
  · have leaks : ∀ b ∈ keys r.sb.tx, b ∈ r.sb.dev.dirtyList → b ∈ [] := by simp [quiet.tx]
    obtain ⟨v', inv', _, settled', current'⟩ := inv.flushLocked leaks
    exact ⟨v', r.txs.length, inv', settled'.trans full, current'.trans current, Nat.le_refl _,
      Nat.le_refl _⟩
  · refine inv.flush_through.mono fun m recovers => ?_
    rcases recovers with old | new
    · exact recoverable_of old settled low high
    · exact recoverable_of new full (low.trans high) (Nat.le_refl _)

theorem tx_sound (roomy : logMaxBlocks < g.logLen)
    (sound : Sound disk r) {t : Tx g D} (safe : SafeOp r (.tx t)) :
    Sound disk { r with sb := r.sb.transact g t.writes, txs := r.txs ++ [t] } ∧
      r.sb.dev.Through (Recoverable disk r.durable (r.txs ++ [t])) (r.sb.transact g t.writes).dev := by
  obtain ⟨quiet, v, k, inv, settled, current, low, high⟩ := sound
  have size := recordAll_length t.writes
  have fits : (recordAll [] t.writes).length ≤ logMaxBlocks := size ▸ t.fits
  have logged : (recordAll [] t.writes).length + 1 ≤ g.logLen := by omega
  have shorter : r.txs.length ≤ (r.txs ++ [t]).length := by simp
  -- the three prefixes a crash can fall back to
  have settled' : v.settled = content disk ((r.txs ++ [t]).take k) := by
    rw [settled, List.take_append_of_le_length high]
  have current' : v.current = content disk ((r.txs ++ [t]).take r.txs.length) := by
    rw [current, List.take_left]
  have next : putAll v.current (recordAll [] t.writes) = content disk (r.txs ++ [t]) := by
    rw [putAll_recordAll _ (by simp), putAll_nil, content_snoc, current]
  by_cases some : recordAll [] t.writes = []
  · have none : t.writes = [] := by
      have empty : (keys t.writes).toFinset.card = 0 := by rw [← size, some, List.length_nil]
      simpa [keys] using empty
    rw [none, Sb.transact_nil g quiet]
    rw [some, putAll_nil] at next
    exact ⟨⟨quiet, v, k, inv, settled', next, low, high.trans shorter⟩,
      Dev.Through.still rfl rfl
        (recoverable_of inv.restores.recovers settled' low (high.trans shorter))⟩
  · rw [Sb.transact_logged quiet fits some logged]
    have opened := inv.recorded quiet.tx t.isMeta 0
    have ok : EntryOk g (recordAll [] t.writes) := by
      refine ⟨some, fits, fun w member => ?_⟩
      have key := mem_keys.mpr ⟨w.2, member⟩
      rw [mem_keys_recordAll] at key
      obtain ⟨d, found⟩ := mem_keys.mp (key.resolve_left (by simp))
      exact t.isMeta (w.1, d) found
    have touched := Dev.touched_foldl inv.linked t.writes
    obtain ⟨v', inv', final, which, through⟩ := opened.commit ok logged (by
      intro pending full b member linked
      rw [mem_keys_recordAll] at member
      rw [touched.dirtyList] at linked
      exact safe pending (size ▸ full) b (member.resolve_left (by simp)) linked)
    refine ⟨⟨Sb.commitLogged_quiet g _ rfl quiet.poisoned quiet.draining, v', ?_⟩, ?_⟩
    · rcases which with same | same | same
      · exact ⟨k, inv', same.trans settled', final.trans next, low, high.trans shorter⟩
      · exact ⟨r.txs.length, inv', same.trans current', final.trans next, low.trans high, shorter⟩
      · refine ⟨(r.txs ++ [t]).length, inv', ?_, final.trans next,
          low.trans (high.trans shorter), Nat.le_refl _⟩
        rw [List.take_length, same, final, next]
    · have start := Dev.Through.still touched.writes touched.disk
          (recoverable_of inv.restores.recovers settled' low (high.trans shorter))
      refine start.trans (through.mono fun m recovers => ?_)
      rcases recovers with old | old | new
      · exact recoverable_of old settled' low (high.trans shorter)
      · exact recoverable_of old current' (low.trans high) shorter
      · exact recoverable_of new (by rw [List.take_length]; exact next)
          (low.trans (high.trans shorter)) (Nat.le_refl _)

/-- One guarded operation keeps the invariant, and every crash within it is recoverable. -/
theorem step_sound (roomy : logMaxBlocks < g.logLen) {r' : Session g D}
    {op : Op g D} (sound : Sound disk r) (safe : SafeOp r op) (taken : step r op = some r') :
    Sound disk r' ∧ r.sb.dev.Through (Recoverable disk r.durable r'.txs) r'.sb.dev := by
  cases op with
  | tx t =>
    cases taken
    exact tx_sound roomy sound safe
  | barrier =>
    cases taken
    exact barrier_sound sound

/-- **A crash costs at most the transactions since the last barrier, and never splits
one**, in every session whose commits are safe to wrap. -/
theorem crash_recovery (roomy : logMaxBlocks < g.logLen) {sb : Sb D} (mounted : Mounted g sb)
    {ops : List (Op g D)} {op : Op g D} {r r' : Session g D}
    (safe : Guarded step SafeOp (begin sb) (ops ++ [op]))
    (ran : run step (begin sb) ops = some r) (taken : step r op = some r') (k : Nat) :
    ∃ p, r.durable ≤ p ∧ p ≤ r'.txs.length ∧
      ∃ sb', mount g (Dev.crashDisk r.sb.dev r'.sb.dev k) = .ok sb' ∧
        ∀ b, g.IsMeta b → sb'.dev.disk b = content sb.dev.disk (r'.txs.take p) b := by
  have sound := run_inv
      (fun s a s' sound safe taken => (step_sound roomy sound safe taken).1)
      (sound_begin mounted) safe.append_left ran
  have last : SafeOp r op := (safe.append_right ran).1
  exact (step_sound roomy sound last taken).2.crash k

/-! ## Poles -/

theorem mountedSb_mounted : Mounted smallGeometry mountedSb := by
  obtain ⟨sb, mounts, mounted, _⟩ := mounted_of_empty blankDisk_published
  cases mounts
  exact mounted

/-- 47 blocks: with its `run_array` the entry leaves one block of the log. -/
def wideTx : Tx smallGeometry PlainBlock where
  writes := (List.range 47).map fun i => (51 + i, .data 1)
  isMeta := by decide
  fits := by decide

/-- Two blocks, one of them in `wideTx`. -/
def pairTx : Tx smallGeometry PlainBlock where
  writes := [(51, .data 2), (98, .data 2)]
  isMeta := by decide
  fits := by decide

/-- The first transaction of a session, and a crash inside the barrier after it. -/
theorem crash_recovery_first_barrier :
    Guarded step SafeOp (begin mountedSb) ([.tx pairTx] ++ [.barrier]) ∧
      ∃ p, 0 ≤ p ∧ p ≤ 1 ∧
        ∃ sb', mount smallGeometry (Dev.crashDisk
            (mountedSb.transact smallGeometry pairTx.writes).dev
            ((mountedSb.transact smallGeometry pairTx.writes).logFlush smallGeometry).dev 3) =
              .ok sb' ∧
          ∀ b, smallGeometry.IsMeta b →
            sb'.dev.disk b = content mountedSb.dev.disk ([pairTx].take p) b := by
  have safe : Guarded step SafeOp (begin mountedSb) ([.tx pairTx] ++ [.barrier]) :=
    ⟨fun pending => absurd pending (by decide), fun _ _ => ⟨trivial, fun _ _ => trivial⟩⟩
  exact ⟨safe, crash_recovery (by decide) mountedSb_mounted safe rfl rfl 3⟩

def tornSb : Sb PlainBlock := mountedSb.transact smallGeometry wideTx.writes

/-- The disk after the commit of `pairTx` over the pending `wideTx`. -/
def tornDisk : Nat → PlainBlock :=
  Dev.crashDisk tornSb.dev (tornSb.transact smallGeometry pairTx.writes).dev 200

theorem tornDisk_blocks :
    tornDisk 0 = .super 0 0 .dirty ∧ tornDisk 51 = .data 2 ∧ tornDisk 98 = .data 0 := by
  decide +kernel

/-- **The wrap can tear a transaction**: `pairTx` shares block 51 with the pending
`wideTx` and does not fit behind it. A crash right after its commit returns leaves
its block 51 on disk without its block 98, and no log to finish or undo it. -/
theorem wrap_tears_transaction :
    ∃ (r r' : Session smallGeometry PlainBlock) (k : Nat),
      logMaxBlocks < smallGeometry.logLen ∧ Mounted smallGeometry mountedSb ∧
      run step (begin mountedSb) [.tx wideTx] = some r ∧ step r (.tx pairTx) = some r' ∧
      ¬ ∃ p, r.durable ≤ p ∧ p ≤ r'.txs.length ∧
        ∃ sb', mount smallGeometry (Dev.crashDisk r.sb.dev r'.sb.dev k) = .ok sb' ∧
          ∀ b, smallGeometry.IsMeta b →
            sb'.dev.disk b = content mountedSb.dev.disk (r'.txs.take p) b := by
  refine ⟨⟨tornSb, [wideTx], 0⟩, ⟨tornSb.transact smallGeometry pairTx.writes, [wideTx, pairTx], 0⟩,
    200, by decide, mountedSb_mounted, by simp [run, step, begin, tornSb], by simp [step], ?_⟩
  rintro ⟨p, _, upto, sb', mounts, same⟩
  obtain ⟨super, shared, alone⟩ := tornDisk_blocks
  have published : Publishes smallGeometry tornDisk [] :=
    ⟨by simp, List.forall_mem_nil _, by rw [super]; rfl, by rw [super]; decide⟩
  obtain ⟨sb, mounts', _, onDisk⟩ := mounted_of_empty published
  have here : sb' = sb := Except.ok.inj (mounts.symm.trans mounts')
  have first := same 51 (by decide)
  have second := same 98 (by decide)
  rw [here, onDisk, shared] at first
  rw [here, onDisk, alone] at second
  have bound : p ≤ 2 := upto
  interval_cases p
  · exact absurd first (by decide +kernel)
  · exact absurd first (by decide +kernel)
  · exact absurd second (by decide +kernel)

end Argentum.Agfs.CrashRecovery
