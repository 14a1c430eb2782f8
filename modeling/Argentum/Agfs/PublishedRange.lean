/-
# Agfs.PublishedRange — no published log block changes under a reader

A volume is up or down. Up, it runs transactions of any size, flushes and syncs, and
may crash within any of them; down, it is mounted, which replays its log and may
crash as well. Every block write that lands in the log range the on-disk superblock
publishes at that moment repeats the content that is there (`Intact`). Phase C of
every flush does repeat the batch's log blocks.

It holds on every run on which `KeepsClear` does. What breaks it is a mount that
replayed: it empties the log in memory only, so the disk goes on publishing the
replayed range while the next entries are written from position 0 again.
`replayed_range_overwritten` is such a run.
-/
import Argentum.Agfs.LogRange
import Argentum.Lib.Machine

namespace Argentum.Agfs.PublishedRange

open Lib.WriteLog Lib.Machine Fs List Sb

/-! ## The machine -/

/-- A transaction: the blocks it updates, each with whether `kmalloc` would find
memory for a copy of it. -/
structure Txn (g : Geometry) (D : Type) where
  updates : List ((Nat × D) × Bool)
  isMeta : ∀ u ∈ updates, g.IsMeta u.1.1

/-- The number of different blocks it updates. -/
def Txn.size {g : Geometry} {D : Type} (t : Txn g D) : Nat :=
  (keys (t.updates.map Prod.fst)).toFinset.card

inductive Act (g : Geometry) (D : Type) where
  | tx (t : Txn g D)
  /-- `agfs_log_flush`. -/
  | flush
  /-- `agfs_log_sync`. -/
  | sync

inductive Sys (D : Type) where
  | up (sb : Sb D)
  | down (disk : Nat → D)

inductive Label (g : Geometry) (D : Type) where
  | act (a : Act g D)
  /-- A crash after the first `k` block writes of `a`. -/
  | crash (a : Act g D) (k : Nat)
  | mount
  /-- A crash after the first `k` block writes of the replay. -/
  | crashMount (k : Nat)

variable {D : Type} {g : Geometry}

/-- The state a transaction's commit finds. -/
def Txn.recorded (sb : Sb D) (t : Txn g D) : Sb D := sb.logBegin.updateAll t.updates

theorem Txn.recorded_poisoned {sb : Sb D} (quiet : sb.Quiet) (t : Txn g D) :
    (t.recorded sb).txPoisoned = overflows [] t.updates := by
  have depth : 0 < sb.logBegin.txDepth := Nat.succ_pos _
  rw [Txn.recorded, updateAll_poisoned depth quiet.draining]
  simp [logBegin, quiet.depth, quiet.poisoned]

/-- What is published behind a flush. -/
def flushed (published pending : Entries D) : Entries D :=
  if pending.isEmpty then published else pending

theorem flushed_some {published pending : Entries D} (some : pending ≠ []) :
    flushed published pending = pending := by
  simp [flushed, some]

variable [BlockFormat D] {dev : Dev D} {es : Entries D} {m : Nat → D} {dev' : Dev D} {ws : Writes D}

def Act.apply (sb : Sb D) : Act g D → Sb D
  | .tx t => (t.recorded sb).logCommit g
  | .flush => sb.logFlush g
  | .sync => sb.logSync g

variable (g) in
def step : Sys D → Label g D → Option (Sys D)
  | .up sb, .act a => some (.up (a.apply sb))
  | .up sb, .crash a k => some (.down (Dev.crashDisk sb.dev (a.apply sb).dev k))
  | .down disk, .mount =>
    match mount g disk with
    | .ok sb => some (.up sb)
    | .error _ => some (.down disk)
  | .down disk, .crashMount k =>
    match mount g disk with
    | .ok sb => some (.down (Dev.crashDisk (loadSb g disk).dev sb.dev k))
    | .error _ => some (.down disk)
  | _, _ => none

variable (g) in
/-- The disk a step finds, and the block writes it completes. -/
def trace : Sys D → Label g D → (Nat → D) × Writes D
  | .up sb, .act a => (sb.dev.disk, (a.apply sb).dev.writes.drop sb.dev.writes.length)
  | .up sb, .crash a k =>
    (sb.dev.disk, ((a.apply sb).dev.writes.drop sb.dev.writes.length).take k)
  | .down disk, .mount =>
    match mount g disk with
    | .ok sb => (disk, sb.dev.writes.drop (loadSb g disk).dev.writes.length)
    | .error _ => (disk, [])
  | .down disk, .crashMount k =>
    match mount g disk with
    | .ok sb => (disk, (sb.dev.writes.drop (loadSb g disk).dev.writes.length).take k)
    | .error _ => (disk, [])
  | .up sb, _ => (sb.dev.disk, [])
  | .down disk, _ => (disk, [])

/-! ## The property of a write -/

/-- The write `w`, made to the disk `m`, changes no block of the log range that `m`
publishes. -/
def Intact (g : Geometry) (m : Nat → D) (w : Nat × D) : Prop :=
  ∀ p < g.logLen, BlockFormat.logStart (m 0) ≤ p → p < BlockFormat.logEnd (m 0) →
    w.1 = g.logBlock p → w.2 = m w.1

/-- The writes leave a published log in place at every moment, and change none. -/
def Careful (g : Geometry) (m : Nat → D) (ws : Writes D) : Prop :=
  Throughout (fun m => ∃ es, Publishes g m es) m ws ∧ EachWrite (Intact g) m ws

theorem careful_append {vs : Writes D} (first : Careful g m ws)
    (rest : Careful g (putAll m ws) vs) : Careful g m (ws ++ vs) :=
  ⟨throughout_append first.1 rest.1, eachWrite_append.mpr ⟨first.2, rest.2⟩⟩

/-- Writes that repeat the superblock and the published log are careful. -/
theorem careful_repeats (published : Publishes g m es)
    (repeats : ∀ w ∈ ws, w.1 = 0 ∨ w.1 ∈ publishedBlocks g m es → w.2 = m w.1) :
    Careful g m ws := by
  constructor
  · exact fun k => ⟨es, published.putAll fun w member => repeats w (mem_of_mem_take member)⟩
  -- the invariant: what a reader of the log looks at is still as `m` has it
  refine eachWrite_of_inv
    (I := fun m' => ∀ b, b = 0 ∨ b ∈ publishedBlocks g m es → m' b = m b) (fun _ _ => rfl) ?_
  intro m' same w member
  constructor
  · intro p _ first last here
    rw [same 0 (.inl rfl)] at first last
    have inRange := (mem_publishedBlocks published).mpr ⟨p, first, last, here⟩
    rw [repeats w member (.inr inRange), same _ (.inr inRange)]
  · intro b fixed
    by_cases here : b = w.1
    · subst here
      rw [put_same]
      exact repeats w member fixed
    · rw [put_of_ne _ _ here]
      exact same b fixed

/-- A write of the superblock is no write to the log. -/
theorem careful_super {es' : Entries D} {d : D}
    (published : Publishes g m es) (published' : Publishes g (put m (0, d)) es') :
    Careful g m [(0, d)] := by
  refine ⟨throughout_cons ⟨es, published⟩ (throughout_nil ⟨es', published'⟩), ?_, trivial⟩
  intro p _ _ _ here
  have low := g.logBlock_ge p
  omega

/-- The block writes from `dev` to `dev'` are careful. -/
def Carefully (g : Geometry) (dev dev' : Dev D) : Prop :=
  ∃ new, dev.Wrote dev' new ∧ Careful g dev.disk new

theorem Carefully.trans {dev₁ dev₂ : Dev D} (first : Carefully g dev dev₁)
    (next : Carefully g dev₁ dev₂) : Carefully g dev dev₂ := by
  obtain ⟨ws, wrote, careful⟩ := first
  obtain ⟨vs, wrote', careful'⟩ := next
  rw [wrote.disk] at careful'
  exact ⟨ws ++ vs, wrote.trans wrote', careful_append careful careful'⟩

section Inv

variable {sb : Sb D} {published pending : Entries D}

section

variable (inv : LogInv g sb published pending)

include inv

theorem still_carefully (writes : dev.writes = sb.dev.writes) (disk : dev.disk = sb.dev.disk) :
    Carefully g sb.dev dev :=
  ⟨[], Dev.Wrote.none writes disk, throughout_nil ⟨published, inv.onDisk⟩, trivial⟩

theorem aside_carefully {sb' : Sb D} (aside : Aside g sb sb') : Carefully g sb.dev sb'.dev :=
  still_carefully inv aside.dev.writes aside.dev.disk

theorem flush_carefully :
    LogInv g (sb.flushLocked g) (flushed published pending) [] ∧
      Carefully g sb.dev (sb.flushLocked g).dev := by
  by_cases none : pending = []
  · subst none
    rw [flushLocked_idle g sb (inv.idle rfl)]
    exact ⟨inv, still_carefully inv rfl rfl⟩
  · obtain ⟨logged, rest, parts⟩ := inv.flush_parts none
    have phaseA : ∀ w ∈ logged, w.1 = 0 ∨ w.1 ∈ publishedBlocks g sb.dev.disk published →
        w.2 = sb.dev.disk w.1 := by
      intro w member fixed
      rcases fixed with zero | inRange
      · have := inv.batch_ge (parts.logged_mem w member)
        omega
      · exact parts.logged_same w member inRange
    rw [flushed_some none]
    refine ⟨inv.flush none, _, parts.wrote, ?_⟩
    refine careful_append (careful_repeats inv.onDisk phaseA) ?_
    -- the superblock write on its own, then repeats of what it published
    have super := careful_super (inv.onDisk.putAll phaseA) parts.published
    exact careful_append super (careful_repeats parts.published parts.rest_same)

theorem sync_carefully : Carefully g sb.dev sb.dev.syncBuffers :=
  ⟨_, Dev.syncBuffers_wrote sb.dev, careful_repeats inv.onDisk fun _ => inv.dirtyWrites_same⟩

end

theorem wrap_carefully (inv : LogInv g sb published []) :
    LogInv g sb.wrap [] [] ∧ Carefully g sb.dev sb.wrap.dev := by
  refine ⟨inv.wrap, _, inv.wrap_wrote, careful_append ?_ ?_⟩
  · exact careful_repeats inv.onDisk fun _ => inv.dirtyWrites_same
  · exact careful_super (inv.onDisk.putAll fun _ => inv.dirtyWrites_same)
      (LogInv.publishes_wrap _ _ _)

theorem publishThrough_carefully (inv : LogInv g sb published pending) :
    Carefully g sb.dev (sb.publishThrough g).dev := by
  have wrote := inv.publishThrough_wrote
  rw [← append_assoc] at wrote
  obtain ⟨same, _⟩ := inv.publishThrough_before
  obtain ⟨published', onDisk, _⟩ := inv.publishThrough_publishes
  rw [wrote.disk, putAll_append] at onDisk
  refine ⟨_, wrote, careful_append (careful_repeats inv.onDisk same) ?_⟩
  exact careful_super (inv.onDisk.putAll same) onDisk

end Inv

/-! ## Committing -/

/-- The commit of `n` blocks needs neither a wrap nor a flush before its entry. -/
def Direct (g : Geometry) (sb : Sb D) (n : Nat) : Prop :=
  sb.logEnd + n + 1 ≤ g.logLen ∧
    ¬ (sb.logPending = true ∧ logBatchBlocks < sb.logPendBlocks + n + 1)

/-- The disk publishes log blocks that the positions in memory have fallen behind. -/
def Stale (sb : Sb D) : Prop :=
  BlockFormat.logStart (sb.dev.disk 0) < BlockFormat.logEnd (sb.dev.disk 0) ∧
    sb.logEnd < BlockFormat.logEnd (sb.dev.disk 0)

/-- A transaction whose entry goes straight to `log_end` ends before the published
range when the positions in memory have fallen behind it. -/
def ClearOf (sb : Sb D) (t : Txn g D) : Prop :=
  0 < t.size → overflows [] t.updates = false → Direct g sb t.size → Stale sb →
    sb.logEnd + t.size + 1 ≤ BlockFormat.logStart (sb.dev.disk 0)

section Commit

variable {sb : Sb D} {published pending : Entries D}

theorem append_carefully (inv : LogInv g sb published pending) (ok : EntryOk g sb.tx)
    (room : sb.Room g) (clear : LogInv.EntryClear sb sb.tx.length) :
    LogInv g (sb.appendEntry g).freeTx published (pending ++ [sb.tx]) ∧
      Carefully g sb.dev (sb.appendEntry g).freeTx.dev :=
  ⟨inv.appended ok room clear, still_carefully inv (by simp [appendEntry, freeTx])
    (by simp [appendEntry, freeTx])⟩

/-- The two lists after the commit of `entry`, in the four courses it can take. -/
inductive Committed (published pending : Entries D) (entry : Writes D) :
    Entries D → Entries D → Prop where
  | wrapped : Committed published pending entry [] [entry]
  | closed : Committed published pending entry (flushed published pending) [entry]
  | joined : Committed published pending entry published (pending ++ [entry])
  | filled : Committed published pending entry (pending ++ [entry]) []

theorem commitLogged_carefully (inv : LogInv g sb published pending) (ok : EntryOk g sb.tx)
    (fits : sb.tx.length + 1 ≤ g.logLen)
    (clear : Direct g sb sb.tx.length → LogInv.EntryClear sb sb.tx.length) :
    (∃ published' pending', LogInv g (sb.commitLogged g) published' pending' ∧
        Committed published pending sb.tx published' pending') ∧
      Carefully g sb.dev (sb.commitLogged g).dev := by
  obtain ⟨_, _, logEnd, tx⟩ := flushLocked_rest g sb inv.unused
  obtain ⟨closed, careful⟩ := flush_carefully inv
  obtain ⟨_, done⟩ | ⟨room, overrun, done⟩ | ⟨room, below, done⟩ | ⟨room, equal, done⟩ :=
    commitLogged_cases g sb ok.small inv.unused <;> rw [done]
  · -- after the wrap nothing is published
    obtain ⟨wrapped, careful'⟩ := wrap_carefully closed
    have tx' : (sb.flushLocked g).wrap.tx = sb.tx := tx
    obtain ⟨appended, last⟩ := append_carefully wrapped (tx' ▸ ok)
      (by
        show 0 + (sb.flushLocked g).wrap.tx.length + 1 ≤ g.logLen
        rw [tx']
        omega)
      (fun p _ _ first => by
        have range := wrapped.onDisk.range
        rw [batchImage_nil, length_nil] at range
        omega)
    rw [tx'] at appended
    exact ⟨⟨_, _, appended, Committed.wrapped⟩, (careful.trans careful').trans last⟩
  · -- after the flush the published range ends at `log_end`
    have ends := (inv.flush_range (inv.flagged.mp overrun.1)).2
    obtain ⟨appended, last⟩ := append_carefully closed (tx ▸ ok)
      (by rw [Sb.Room, logEnd, tx]; exact room)
      (fun p above _ _ => by omega)
    rw [tx] at appended
    exact ⟨⟨_, _, appended, Committed.closed⟩, careful.trans last⟩
  · obtain ⟨appended, last⟩ := append_carefully inv ok room
      (clear ⟨room, fun overrun => by omega⟩)
    exact ⟨⟨_, _, appended, Committed.joined⟩, last⟩
  · obtain ⟨appended, last⟩ := append_carefully inv ok room
      (clear ⟨room, fun overrun => by omega⟩)
    obtain ⟨full, careful'⟩ := flush_carefully appended
    rw [flushed_some (by simp)] at full
    exact ⟨⟨_, _, full, Committed.filled⟩, last.trans careful'⟩

/-- The transaction goes to its places behind the published log. -/
theorem applied_aside (isMeta : ∀ w ∈ sb.tx, g.IsMeta w.1) :
    Aside g (sb.publishThrough g) { sb.publishThrough g with
      dev := (sb.publishThrough g).dev.storeAll (sb.publishThrough g).tx } := by
  have tx : (sb.publishThrough g).tx = sb.tx := by rw [publishThrough_eq]
  exact ⟨rfl, rfl, rfl, rfl, Dev.within_storeAll (by rw [tx]; exact isMeta)⟩

theorem commitThrough_carefully (inv : LogInv g sb published pending)
    (isMeta : ∀ w ∈ sb.tx, g.IsMeta w.1) :
    (∃ published', LogInv g (sb.commitThrough g).freeTx published' pending ∧
        (published' = [] ∨ published' = flushed published pending)) ∧
      Carefully g sb.dev (sb.commitThrough g).freeTx.dev := by
  obtain ⟨published', through, which⟩ := inv.publishThrough
  have inv' := through.aside (applied_aside isMeta)
  refine ⟨⟨published', inv'.synced.aside .same, ?_⟩, ?_⟩
  · rcases which with none | batch | ⟨none, kept⟩
    · exact .inl none
    · by_cases empty : pending = []
      · exact .inl (batch.trans empty)
      · exact .inr (batch.trans (flushed_some empty).symm)
    · subst none kept
      exact .inr rfl
  · exact ((publishThrough_carefully inv).trans (aside_carefully through (applied_aside isMeta))).trans
      (sync_carefully inv')

end Commit

/-- The state between operations. -/
def Rest (g : Geometry) (sb : Sb D) : Prop :=
  sb.Quiet ∧ ∃ published pending, LogInv g sb published pending

/-- The two lists after a transaction, by what its commit found in `sb`. -/
inductive Ended (g : Geometry) (sb : Sb D) (published pending : Entries D) :
    Entries D → Entries D → Prop where
  | poisoned (overflowed : sb.txPoisoned = true) : Ended g sb published pending published pending
  | empty (clean : sb.txPoisoned = false) (none : sb.tx = []) :
      Ended g sb published pending published pending
  | through (clean : sb.txPoisoned = false) (large : g.logLen < sb.tx.length + 1)
      {published' : Entries D}
      (which : published' = [] ∨ published' = flushed published pending) :
      Ended g sb published pending published' pending
  | logged (clean : sb.txPoisoned = false) {published' pending' : Entries D}
      (committed : Committed published pending sb.tx published' pending') :
      Ended g sb published pending published' pending'

theorem tx_carefully {sb : Sb D} (quiet : sb.Quiet) {published pending : Entries D}
    (inv : LogInv g sb published pending) {t : Txn g D} (clear : ClearOf sb t) :
    ((t.recorded sb).logCommit g).Quiet ∧
      (∃ published' pending', LogInv g ((t.recorded sb).logCommit g) published' pending' ∧
        Ended g (t.recorded sb) published pending published' pending') ∧
      Carefully g sb.dev ((t.recorded sb).logCommit g).dev := by
  have opened : Opened g sb (t.recorded sb) (t.updates.map Prod.fst) :=
    opened_updateAll quiet t.isMeta
  have overflowed := t.recorded_poisoned quiet
  have still := aside_carefully inv opened.aside
  generalize t.recorded sb = sb₁ at *
  have inv₁ := inv.aside opened.aside
  have inv₂ : LogInv g sb₁.closing published pending :=
    inv₁.aside .same
  refine ⟨logCommit_quiet opened.depth opened.draining, ?_⟩
  obtain ⟨poisoned, done⟩ | ⟨clean, none, done⟩ | ⟨clean, some, large, done⟩ |
      ⟨clean, some, fits, done⟩ := logCommit_cases g opened.depth <;> rw [done]
  · -- everything was written through: nothing is left to do
    have freed : Aside g sb₁ ({ sb₁.closing with txPoisoned := false } : Sb D).freeTx :=
      .same
    exact ⟨⟨published, pending, inv₁.aside freed, Ended.poisoned poisoned⟩, still⟩
  · have freed : Aside g sb₁ sb₁.closing.freeTx := .same
    exact ⟨⟨published, pending, inv₁.aside freed, Ended.empty clean none⟩, still⟩
  · obtain ⟨⟨published', keeps, which⟩, careful⟩ := commitThrough_carefully inv₂ opened.isMeta
    exact ⟨⟨published', pending, keeps, Ended.through clean large which⟩, still.trans careful⟩
  · have size : sb₁.tx.length = t.size := by
      rw [opened.recorded clean, recordAll_length]
      rfl
    have positive : 0 < t.size := size ▸ length_pos_iff.mpr some
    have entryClear : Direct g sb₁.closing sb₁.tx.length →
        LogInv.EntryClear sb₁.closing sb₁.tx.length := by
      intro direct p above below first
      simp only [closing, size, opened.aside.logEnd, opened.aside.logPending,
        opened.aside.logPendBlocks, opened.aside.dev.disk] at direct above below first ⊢
      have before := clear positive (overflowed.symm.trans clean) direct
      by_cases stale : Stale sb
      · have := before stale
        omega
      · unfold Stale at stale
        omega
    obtain ⟨⟨published', pending', keeps, committed⟩, careful⟩ :=
      commitLogged_carefully inv₂ ⟨some, opened.small, opened.isMeta⟩ fits entryClear
    exact ⟨⟨published', pending', keeps, Ended.logged clean committed⟩, still.trans careful⟩

theorem apply_carefully {sb : Sb D} (atRest : Rest g sb) {a : Act g D}
    (clear : ∀ t, a = .tx t → ClearOf sb t) :
    Rest g (a.apply sb) ∧ Carefully g sb.dev (a.apply sb).dev := by
  obtain ⟨quiet, published, pending, inv⟩ := atRest
  cases a with
  | tx t =>
    obtain ⟨quiet', ⟨published', pending', inv', _⟩, careful⟩ :=
      tx_carefully quiet inv (clear t rfl)
    exact ⟨⟨quiet', published', pending', inv'⟩, careful⟩
  | flush =>
    obtain ⟨inv', careful⟩ := flush_carefully inv
    exact ⟨⟨logFlush_quiet g sb quiet, _, [], inv'⟩, careful⟩
  | sync =>
    obtain ⟨inv', careful⟩ := flush_carefully inv
    have quiet' := logFlush_quiet g sb quiet
    exact ⟨⟨⟨quiet'.depth, quiet'.tx, quiet'.poisoned, quiet'.draining⟩, _, [], inv'.synced⟩,
      careful.trans (sync_carefully inv')⟩

/-! ## Mounting -/

/-- A mount leaves the replayed range published. -/
theorem fresh_logInv {disk : Nat → D}
    (published : Publishes g disk es) {sb : Sb D} (fresh : Fresh g disk es sb) :
    LogInv g sb es [] ∧ Carefully g (loadSb g disk).dev sb.dev := by
  have isMeta : ∀ b ∈ keys es.flatten, g.IsMeta b := by
    intro b member
    obtain ⟨d, found⟩ := mem_keys.mp member
    obtain ⟨e, inBatch, inEntry⟩ := mem_flatten.mp found
    exact (published.good e inBatch).isMeta _ inEntry
  have apart : ∀ b, g.IsMeta b → b = 0 ∨ b ∈ publishedBlocks g disk es → False := by
    intro b here fixed
    rcases fixed with zero | inRange
    · have := here.1
      omega
    · exact publishedBlocks_not_meta published here inRange
  have onDisk : Publishes g sb.dev.disk es := by
    rw [fresh.onDisk]
    exact published.putAll fun w member fixed =>
      (apart _ (isMeta _ (mem_keys.mpr ⟨w.2, member⟩)) fixed).elim
  have inv : LogInv g sb es [] :=
    { onDisk := onDisk
      good := forall_mem_nil _
      flagged := by simp [fresh.idle]
      size := by simp [fresh.unused]
      ready := forall_mem_nil _
      upto := fun some => absurd rfl some
      rest := fun _ => .inl fresh.empty
      inside := fresh.inside
      compat := forall_mem_nil _
      dirty := by simp [fresh.clean]
      linked := fresh.linked }
  obtain ⟨ws, wrote, inLog⟩ := fresh.wrote
  have loaded := (loadSb_copied g disk).disk
  refine ⟨inv, ws, wrote, ?_⟩
  rw [loaded]
  exact careful_repeats published fun w member fixed =>
    (apart _ (isMeta _ (inLog w member)) fixed).elim

/-! ## Runs -/

def Sound (g : Geometry) : Sys D → Prop
  | .up sb => Rest g sb
  | .down disk => ∃ es, Publishes g disk es

/-- Every commit is clear of the published range. -/
def KeepsClear : Sys D → Label g D → Prop
  | .up sb, .act (.tx t) => ClearOf sb t
  | .up sb, .crash (.tx t) _ => ClearOf sb t
  | _, _ => True

theorem Carefully.crash (careful : Carefully g dev dev') (k : Nat) :
    (∃ es, Publishes g (Dev.crashDisk dev dev' k) es) ∧
      EachWrite (Intact g) dev.disk ((dev'.writes.drop dev.writes.length).take k) := by
  obtain ⟨new, wrote, through, each⟩ := careful
  rw [Dev.crashDisk, wrote.new_eq]
  exact ⟨through k, each.take k⟩

theorem Carefully.whole (careful : Carefully g dev dev') :
    EachWrite (Intact g) dev.disk (dev'.writes.drop dev.writes.length) := by
  obtain ⟨new, wrote, _, each⟩ := careful
  rwa [wrote.new_eq]

theorem step_sound {s s' : Sys D} {l : Label g D} (sound : Sound g s) (clear : KeepsClear s l)
    (taken : step g s l = some s') :
    Sound g s' ∧ EachWrite (Intact g) (trace g s l).1 (trace g s l).2 := by
  cases s with
  | up sb =>
    cases l with
    | act a =>
      obtain ⟨atRest, careful⟩ := apply_carefully sound (a := a) fun t isTx => by
        subst isTx
        exact clear
      cases taken
      exact ⟨atRest, careful.whole⟩
    | crash a k =>
      obtain ⟨_, careful⟩ := apply_carefully sound (a := a) fun t isTx => by
        subst isTx
        exact clear
      cases taken
      exact careful.crash k
    | mount => cases taken
    | crashMount k => cases taken
  | down disk =>
    obtain ⟨es, published⟩ := sound
    obtain ⟨sb, mounts, fresh⟩ := mount_publishes g published
    obtain ⟨inv, careful⟩ := fresh_logInv published fresh
    have atRest : Rest g sb := ⟨fresh.quiet, es, [], inv⟩
    have loaded := (loadSb_copied g disk).disk
    cases l with
    | act a => cases taken
    | crash a k => cases taken
    | mount =>
      have each := careful.whole
      rw [loaded] at each
      simp only [step, mounts, Option.some.injEq] at taken
      subst taken
      simp only [trace, mounts]
      exact ⟨atRest, each⟩
    | crashMount k =>
      have each := careful.crash k
      rw [loaded] at each
      simp only [step, mounts, Option.some.injEq] at taken
      subst taken
      simp only [trace, mounts]
      exact each

/-- **No write changes a block of the log range published at that moment**, on every
run, through crashes and mounts, whose commits keep clear of it. -/
theorem published_range_intact {disk : Nat → D} {es : List (List (Nat × D))}
    (published : Publishes g disk es) {ls : List (Label g D)} {l : Label g D} {s s' : Sys D}
    (clear : Guarded (step g) KeepsClear (.down disk) (ls ++ [l]))
    (ran : run (step g) (.down disk) ls = some s) (taken : step g s l = some s') :
    EachWrite (Intact g) (trace g s l).1 (trace g s l).2 := by
  have sound : Sound g s :=
    run_inv (fun s a s' sound clear taken => (step_sound sound clear taken).1)
      (show Sound g (.down disk) from ⟨es, published⟩) clear.append_left ran
  have last := (clear.append_right ran).1
  exact (step_sound sound last taken).2

/-! ## Poles -/

def pairTxn : Txn smallGeometry PlainBlock where
  updates := [((51, .data 1), true), ((52, .data 2), true)]
  isMeta := by decide

def singleTxn : Txn smallGeometry PlainBlock where
  updates := [((60, .data 7), true)]
  isMeta := by decide

/-- The first transaction on a volume as it is made, and its flush. -/
theorem published_range_intact_first_flush :
    Guarded (step smallGeometry) KeepsClear (.down blankDisk)
        ([.mount, .act (.tx pairTxn)] ++ [.act .flush]) ∧
      EachWrite (Intact smallGeometry)
        (trace smallGeometry (.up (Act.apply mountedSb (.tx pairTxn))) (.act .flush)).1
        (trace smallGeometry (.up (Act.apply mountedSb (.tx pairTxn))) (.act .flush)).2 := by
  have mounts : step smallGeometry (.down blankDisk) .mount = some (.up mountedSb) := by
    rw [step, mount_blankDisk]
  have clear : Guarded (step smallGeometry) KeepsClear (.down blankDisk)
      ([.mount, .act (.tx pairTxn)] ++ [.act .flush]) := by
    refine ⟨trivial, fun s taken => ?_⟩
    rw [mounts, Option.some.injEq] at taken
    subst taken
    refine ⟨fun _ _ _ stale => absurd stale.1 (by decide), fun s taken => ?_⟩
    cases taken
    exact ⟨trivial, fun _ _ => trivial⟩
  refine ⟨clear, published_range_intact blankDisk_published clear ?_ rfl⟩
  rfl

/-- `pairTxn` is flushed up to its superblock write, replayed by the next mount, and
followed by `singleTxn`. -/
def staleRun : List (Label smallGeometry PlainBlock) :=
  [.mount, .act (.tx pairTxn), .crash .flush 4, .mount, .act (.tx singleTxn)]

/-- The flush behind it finds `pairTxn` published and starts by writing over it. -/
def startsOver (s : Sys PlainBlock) : Bool :=
  let t := trace smallGeometry s (.act .flush)
  t.1 0 == .super 0 3 .dirty && t.1 2 == .runs [encodeRun 16 51, encodeRun 16 52] &&
    t.1 3 == .data 1 && t.1 4 == .data 2 && t.2.head? == some (2, .runs [encodeRun 16 60])

theorem staleRun_startsOver :
    (run (step smallGeometry) (.down blankDisk) staleRun).any startsOver = true := by
  decide +kernel

/-- **The range a mount replayed is overwritten while it is still published**: the
first log block of the next batch replaces the `run_array` of an entry that the
superblock on disk still points at. -/
theorem replayed_range_overwritten :
    ∃ s s' es, Publishes smallGeometry blankDisk [] ∧
      run (step smallGeometry) (.down blankDisk) staleRun = some s ∧
      step smallGeometry s (.act .flush) = some s' ∧
      es ≠ [] ∧ Publishes smallGeometry (trace smallGeometry s (.act .flush)).1 es ∧
      ¬ EachWrite (Intact smallGeometry) (trace smallGeometry s (.act .flush)).1
          (trace smallGeometry s (.act .flush)).2 := by
  obtain ⟨s, ran, found⟩ := (Option.any_eq_true _ _).mp staleRun_startsOver
  simp only [PublishedRange.startsOver, Bool.and_eq_true, beq_iff_eq] at found
  obtain ⟨⟨⟨⟨super, array⟩, first⟩, second⟩, overwrites⟩ := found
  cases s with
  | down disk => cases overwrites
  | up sb =>
    refine ⟨_, _, [[(51, .data 1), (52, .data 2)]], blankDisk_published, ran, rfl, by simp, ?_, ?_⟩
    · refine ⟨?_, ?_, by rw [super]; rfl, by rw [super]; decide⟩
      · intro e member
        rw [mem_singleton] at member
        subst member
        exact ⟨by simp, by decide, by decide⟩
      · rw [super]
        intro w member
        change w ∈ [(2, PlainBlock.runs [encodeRun 16 51, encodeRun 16 52]), (3, .data 1),
          (4, .data 2)] at member
        simp only [mem_cons, not_mem_nil, or_false] at member
        rcases member with rfl | rfl | rfl
        · exact array
        · exact first
        · exact second
    · intro each
      have changed := each.head overwrites 0 (by decide) (by rw [super]; decide)
        (by rw [super]; decide) rfl
      rw [array] at changed
      exact absurd changed (by decide)

end Argentum.Agfs.PublishedRange
