/-
# Agfs.TxCache — reading one's own writes inside a transaction

`agfs_log_write_block` copies a block into the transaction and releases the buffer
without marking it, so until the commit the new content is in the journal's copy, which
readers do not look at, and in a buffer that the cache takes for clean.

The machine is one transaction, its callers' buffer operations one by one, and the
evictions of `Fs.Eviction` at any point between them. `recorded` is the content last
handed to `agfs_log_write_block`. `read_own_writes` holds of every run on which `Safe`
does: no eviction takes a clean buffer of a recorded block that the disk does not back,
and no caller releases a changed buffer of one without handing it over.

`eviction_loses_record` is the shortest run with such an eviction.
-/
import Argentum.Agfs.CommitCache
import Argentum.Agfs.Replay
import Argentum.Fs.Eviction
import Argentum.Lib.Machine

namespace Argentum.Agfs.TxCache

open Lib.WriteLog Lib.Machine Fs List Function Dev Sb

/-! ## The machine -/

inductive Op (g : Geometry) (D : Type) where
  | bread (b : { b : Nat // g.IsMeta b })
  /-- The caller changes a buffer it holds. -/
  | modify (b : { b : Nat // g.IsMeta b }) (d : D)
  | logWriteBlock (b : { b : Nat // g.IsMeta b }) (kmallocs : Bool)
  | brelse (b : { b : Nat // g.IsMeta b })
  /-- `agfs_log_commit`, the outermost one. -/
  | logCommit
  /-- `getblk` comes upon the buffer of block `v`. -/
  | recycle (v : Nat)
  /-- `reclaim_buffers` comes upon the buffer of block `v`. -/
  | reclaim (v : Nat)

structure Session (D : Type) where
  sb : Sb D
  /-- The content last handed to `agfs_log_write_block`, by block. -/
  recorded : Nat → Option D
  /-- The held blocks whose buffers were changed and not handed over since. -/
  changed : List Nat

namespace Session

variable {D : Type} (r : Session D)

def withDev (dev : Dev D) : Session D := { r with sb := { r.sb with dev := dev } }

/-- The caller gives the buffer of `b` back. -/
def releases (b : Nat) : List Nat := r.changed.filter fun c => c ≠ b

/-- The caller gives it to `agfs_log_write_block`, which leaves `sb`. -/
def handsOver (b : Nat) (sb : Sb D) : Session D where
  sb := sb
  recorded := update r.recorded b (some (r.sb.dev.peek b))
  changed := r.releases b

end Session

variable {D : Type} {g : Geometry} [BlockFormat D]

/-- A caller sleeps on a buffer that is locked, its own ones included: such a `bread`,
and a commit that comes to such a block, do not return. -/
def step (r : Session D) : Op g D → Option (Session D)
  | .bread b =>
    if r.sb.dev.bufferLocked b then none else some (r.withDev (r.sb.dev.bread b))
  | .modify b d =>
    if r.sb.dev.bufferLocked b then
      some { r.withDev (r.sb.dev.modify b d) with changed := ↑b :: r.changed }
    else none
  | .logWriteBlock b kmallocs =>
    if r.sb.dev.bufferLocked b then
      some (r.handsOver b (r.sb.logWriteBlock b kmallocs))
    else none
  | .brelse b =>
    if r.sb.dev.bufferLocked b then
      some { r.withDev (r.sb.dev.brelse b) with changed := r.releases b }
    else none
  | .logCommit =>
    if r.sb.tx.any fun w => r.sb.dev.bufferLocked w.1 then none
    else some { r with sb := r.sb.logCommit g }
  | .recycle v => (r.sb.dev.recycle v).map r.withDev
  | .reclaim v => (r.sb.dev.reclaim v).map r.withDev

/-- From `agfs_log_begin` on. -/
def begin (sb : Sb D) : Session D := ⟨sb.logBegin, fun _ => none, []⟩

/-- What evictions and callers must not do to a recorded block. -/
def Safe (r : Session D) : Op g D → Prop
  | .brelse b => (r.recorded b).isSome → ↑b ∉ r.changed
  | .recycle v => (r.recorded v).isSome → r.sb.dev.Backed v
  | .reclaim v => (r.recorded v).isSome → r.sb.dev.Backed v
  | _ => True

/-! ## The invariant -/

/-- The journal's side: one transaction, open or committed. -/
structure Tx (sb : Sb D) : Prop where
  depth : sb.txDepth ≤ 1
  draining : sb.logDraining = false
  empty : sb.txDepth = 0 ∨ sb.txPoisoned = true → sb.tx = []

structure Inv (g : Geometry) (r : Session D) : Prop where
  tx : Tx r.sb
  shown : ∀ b d, r.recorded b = some d → b ∉ r.changed → r.sb.dev.peek b = d
  held : ∀ b ∈ r.changed, r.sb.dev.bufferLocked b = true
  copies : ∀ w ∈ r.sb.tx, r.recorded w.1 = some w.2
  isMeta : ∀ b, (r.recorded b).isSome ∨ b ∈ r.changed → g.IsMeta b

open Session

section Steps

omit [BlockFormat D]

variable {r : Session D} {b : Nat} {dev : Dev D}

theorem Session.mem_releases {c : Nat} : c ∈ r.releases b ↔ c ∈ r.changed ∧ c ≠ b := by
  simp [releases]

variable (inv : Inv g r)

include inv

/-- A step of the cache alone. -/
theorem Inv.withDev
    (peek : ∀ b, (r.recorded b).isSome → b ∉ r.changed → dev.peek b = r.sb.dev.peek b)
    (locks : ∀ b ∈ r.changed, dev.bufferLocked b = true) : Inv g (r.withDev dev) := by
  refine ⟨⟨inv.tx.depth, inv.tx.draining, inv.tx.empty⟩, ?_, locks, inv.copies, inv.isMeta⟩
  intro b d recorded free
  exact (peek b (Option.isSome_of_eq_some recorded) free).trans (inv.shown b d recorded free)

/-- The caller hands a buffer over: it shows the same content, and is let go. -/
theorem Inv.handed (isMeta : g.IsMeta b) {sb : Sb D} (tx : Tx sb)
    (peek : sb.dev.peek = r.sb.dev.peek)
    (locks : ∀ c, c ≠ b → r.sb.dev.bufferLocked c = true → sb.dev.bufferLocked c = true)
    (copies : ∀ w ∈ sb.tx, w = (b, r.sb.dev.peek b) ∨ w ∈ r.sb.tx ∧ w.1 ≠ b) :
    Inv g (r.handsOver b sb) := by
  refine ⟨tx, fun c d recorded free => ?_, fun c member => ?_, fun w member => ?_,
    fun c here => ?_⟩
  · change update r.recorded b (some (r.sb.dev.peek b)) c = some d at recorded
    change sb.dev.peek c = d
    rw [peek]
    by_cases same : c = b
    · subst same
      rw [update_self, Option.some.injEq] at recorded
      exact recorded
    · rw [update_of_ne same] at recorded
      exact inv.shown c d recorded fun changed => free (mem_releases.mpr ⟨changed, same⟩)
  · obtain ⟨changed, other⟩ := mem_releases.mp member
    exact locks c other (inv.held c changed)
  · rcases copies w member with rfl | ⟨old, other⟩
    · exact update_self _ _ _
    · exact (update_of_ne other _ _).trans (inv.copies w old)
  · by_cases same : c = b
    · exact same ▸ isMeta
    · change (update r.recorded b (some (r.sb.dev.peek b)) c).isSome ∨ c ∈ r.releases b
        at here
      rw [update_of_ne same] at here
      exact inv.isMeta c (here.imp_right fun member => (mem_releases.mp member).1)

theorem Inv.logWriteBlock (isMeta : g.IsMeta b) (kmallocs : Bool) :
    Inv g (r.handsOver b (r.sb.logWriteBlock b kmallocs)) := by
  obtain ⟨depth, draining, empty⟩ := inv.tx
  obtain ⟨plain, done⟩ | ⟨recording, _, done⟩ | ⟨_, _, done⟩ :=
    logWriteBlock_cases draining b kmallocs <;> rw [done]
  · refine inv.handed isMeta ⟨depth, draining, empty⟩ (bwrite_peek _ _) ?_ ?_
    · intro c other locked
      rw [bwrite_bufferLocked, if_neg other]
      exact locked
    · intro w member
      rw [show r.sb.tx = [] from empty plain] at member
      exact absurd member not_mem_nil
  · refine inv.handed isMeta ⟨depth, draining, ?_⟩ (brelse_peek _ _) ?_ ?_
    · rintro (ended | poisoned)
      · exact absurd ended (Nat.ne_of_gt recording.1)
      · exact absurd (recording.2.symm.trans poisoned) (by decide)
    · intro c other locked
      rw [brelse_bufferLocked, if_neg other]
      exact locked
    · exact fun w member => mem_record member
  · -- a recorded block that is not locked is not changed, so its copy is what it shows
    have through : (r.sb.writeThrough b).peek = r.sb.dev.peek := by
      apply writeThrough_peek
      intro w member _ unlocked
      apply inv.shown w.1 w.2 (inv.copies w member)
      intro changed
      exact absurd ((inv.held w.1 changed).symm.trans unlocked) (by decide)
    refine inv.handed isMeta ⟨depth, draining, fun _ => rfl⟩ ?_ ?_ ?_
    · rw [bwrite_peek, through]
    · intro c other locked
      rw [bwrite_bufferLocked, if_neg other]
      exact writeThrough_bufferLocked b locked
    · exact forall_mem_nil _

theorem Inv.evict {v : Nat}
    (evicted : r.sb.dev.recycle v = some dev ∨ r.sb.dev.reclaim v = some dev)
    (backed : (r.recorded v).isSome → r.sb.dev.Backed v) : Inv g (r.withDev dev) := by
  apply inv.withDev
  · intro b recorded _
    by_cases here : b = v
    · subst here
      rw [evict_peek evicted (backed recorded)]
    · exact evict_peek_ne evicted here
  · intro b changed
    rw [evict_bufferLocked evicted]
    exact inv.held b changed

end Steps

theorem Inv.logCommit {r : Session D} (inv : Inv g r)
    (free : ∀ w ∈ r.sb.tx, r.sb.dev.bufferLocked w.1 = false) :
    Inv g { r with sb := r.sb.logCommit g } := by
  obtain ended | opened : r.sb.txDepth = 0 ∨ r.sb.txDepth = 1 := by
    have := inv.tx.depth
    omega
  · have same : r.sb.logCommit g = r.sb := by rw [Sb.logCommit, if_pos ended]
    rw [same]
    exact inv
  · have unchanged : ∀ w ∈ r.sb.tx, w.1 ∉ r.changed := by
      intro w member changed
      exact absurd ((inv.held w.1 changed).symm.trans (free w member)) (by decide)
    have copies : ∀ w ∈ r.sb.tx, r.sb.dev.peek w.1 = w.2 := fun w member =>
      inv.shown w.1 w.2 (inv.copies w member) (unchanged w member)
    have quiet : (r.sb.logCommit g).Quiet := logCommit_quiet opened inv.tx.draining
    refine ⟨⟨by rw [quiet.depth]; exact Nat.zero_le 1, quiet.draining, fun _ => quiet.tx⟩,
      fun b d recorded untouched => ?_, fun b changed => ?_, fun w member => ?_, inv.isMeta⟩
    · have isMeta := inv.isMeta b (.inl (Option.isSome_of_eq_some recorded))
      rw [logCommit_peek opened copies isMeta]
      exact inv.shown b d recorded untouched
    · have absent : b ∉ keys r.sb.tx := by
        intro member
        obtain ⟨d, found⟩ := mem_keys.mp member
        exact unchanged (b, d) found changed
      rw [logCommit_bufferLocked opened (inv.isMeta b (.inr changed)) absent]
      exact inv.held b changed
    · rw [quiet.tx] at member
      exact absurd member not_mem_nil

/-! ## Runs -/

theorem step_inv {r r' : Session D} {op : Op g D} (inv : Inv g r) (safe : Safe r op)
    (taken : step r op = some r') : Inv g r' := by
  cases op with
  | bread b =>
    simp only [step] at taken
    split at taken
    · cases taken
    cases taken
    apply inv.withDev
    · exact fun c _ _ => by rw [bread_peek]
    · intro c changed
      rw [bread_bufferLocked, inv.held c changed, ite_self]
  | modify b d =>
    simp only [step, when_eq_some] at taken
    obtain ⟨held, rfl⟩ := taken
    refine ⟨⟨inv.tx.depth, inv.tx.draining, inv.tx.empty⟩, fun c e recorded free => ?_,
      fun c member => ?_, inv.copies, fun c here => ?_⟩
    · rw [mem_cons, not_or] at free
      show (r.sb.dev.modify b d).peek c = e
      rw [modify_peek_ne _ d free.1]
      exact inv.shown c e recorded free.2
    · show (r.sb.dev.modify b d).bufferLocked c = true
      rw [modify_bufferLocked]
      rcases mem_cons.mp member with rfl | changed
      · exact held
      · exact inv.held c changed
    · rcases here with recorded | member
      · exact inv.isMeta c (.inl recorded)
      · rcases mem_cons.mp member with rfl | changed
        · exact b.2
        · exact inv.isMeta c (.inr changed)
  | logWriteBlock b kmallocs =>
    simp only [step, when_eq_some] at taken
    obtain ⟨-, rfl⟩ := taken
    exact inv.logWriteBlock b.2 kmallocs
  | brelse b =>
    simp only [step, when_eq_some] at taken
    obtain ⟨-, rfl⟩ := taken
    refine ⟨⟨inv.tx.depth, inv.tx.draining, inv.tx.empty⟩, fun c d recorded free => ?_,
      fun c member => ?_, inv.copies, fun c here => ?_⟩
    · show (r.sb.dev.brelse b).peek c = d
      rw [brelse_peek]
      apply inv.shown c d recorded
      intro changed
      by_cases same : c = b
      · subst same
        exact safe (Option.isSome_of_eq_some recorded) changed
      · exact free (mem_releases.mpr ⟨changed, same⟩)
    · obtain ⟨changed, other⟩ := mem_releases.mp member
      show (r.sb.dev.brelse b).bufferLocked c = true
      rw [brelse_bufferLocked, if_neg other]
      exact inv.held c changed
    · exact inv.isMeta c (here.imp_right fun member => (mem_releases.mp member).1)
  | logCommit =>
    simp only [step, unless_eq_some] at taken
    obtain ⟨free, rfl⟩ := taken
    apply inv.logCommit
    simpa using free
  | recycle v =>
    obtain ⟨dev, evicted, rfl⟩ := Option.map_eq_some_iff.mp taken
    exact inv.evict (.inl evicted) safe
  | reclaim v =>
    obtain ⟨dev, evicted, rfl⟩ := Option.map_eq_some_iff.mp taken
    exact inv.evict (.inr evicted) safe

omit [BlockFormat D] in
theorem begin_inv {sb : Sb D} (quiet : sb.Quiet) : Inv g (begin sb) := by
  have none : (begin sb).sb.tx = [] := by simp [begin, logBegin, quiet.depth]
  refine ⟨⟨by simp [begin, logBegin, quiet.depth], quiet.draining, fun _ => none⟩,
    fun b d recorded => ?_, forall_mem_nil _,
    fun w member => ?_, fun b here => ?_⟩
  · cases recorded
  · rw [none] at member
    exact absurd member not_mem_nil
  · rcases here with recorded | changed
    · cases recorded
    · exact absurd changed not_mem_nil

/-- **A `bread` of a recorded block gets the content last recorded**, at any point of a
transaction and after its commit, whatever was evicted, on every safe run. -/
theorem read_own_writes {sb : Sb D} (quiet : sb.Quiet) {ops : List (Op g D)} {r : Session D}
    (safe : Guarded step Safe (begin sb) ops) (ran : run step (begin sb) ops = some r)
    {b : { b : Nat // g.IsMeta b }} {d : D} (recorded : r.recorded b = some d)
    (free : r.sb.dev.bufferLocked b = false) :
    ∃ r' bf, step r (.bread b) = some r' ∧ r'.sb.dev.buf b = some bf ∧ bf.data = d := by
  have inv : Inv g r :=
    run_inv (fun _ _ _ inv safe taken => step_inv inv safe taken) (begin_inv quiet) safe ran
  have unchanged : ↑b ∉ r.changed := fun changed =>
    absurd ((inv.held b changed).symm.trans free) (by decide)
  have shown := inv.shown b d recorded unchanged
  have taken : step r (.bread b) = some (r.withDev (r.sb.dev.bread b)) := by simp [step, free]
  have cached : ∃ bf, (r.sb.dev.bread b).buf b = some bf := by
    cases present : r.sb.dev.buf b <;> simp [bread, present]
  obtain ⟨bf, held⟩ := cached
  refine ⟨_, bf, taken, held, ?_⟩
  rw [← shown, ← bread_peek, peek, held]

/-! ## Poles -/

def block51 : { b : Nat // smallGeometry.IsMeta b } := ⟨51, smallGeometry_meta51⟩

def block52 : { b : Nat // smallGeometry.IsMeta b } := ⟨52, smallGeometry_meta52⟩

/-- Block 51 is read, changed and recorded. -/
def recordOnce : List (Op smallGeometry PlainBlock) :=
  [.bread block51, .modify block51 (.data 1), .logWriteBlock block51 true]

/-- Block 52 is read besides, and its buffer taken away. -/
def evictOther : List (Op smallGeometry PlainBlock) :=
  recordOnce ++ [.bread block52, .brelse block52, .recycle 52]

theorem evictOther_safe : Guarded step Safe (begin mountedSb) evictOther := by
  refine .cons trivial rfl (.cons trivial rfl (.cons trivial rfl (.cons trivial rfl
    (.cons ?_ rfl (.cons ?_ rfl trivial)))))
  · exact fun recorded => absurd recorded (by decide)
  · exact fun recorded => absurd recorded (by decide)

theorem read_own_writes_other :
    ∃ r r' bf, run step (begin mountedSb) evictOther = some r ∧
      r.recorded 51 = some (.data 1) ∧ step r (.bread block51) = some r' ∧
      r'.sb.dev.buf 51 = some bf ∧ bf.data = .data 1 := by
  have quiet : mountedSb.Quiet := ⟨rfl, rfl, rfl, rfl⟩
  obtain ⟨r', bf, taken, cached, content⟩ :=
    read_own_writes (b := block51) quiet evictOther_safe rfl rfl rfl
  exact ⟨_, r', bf, rfl, rfl, taken, cached, content⟩

/-- **The recorded content is lost to readers**: `getblk` takes the buffer of a block
just recorded, which is free and not marked dirty, and the next `bread` of the block
gets the content on disk. -/
theorem eviction_loses_record :
    ∃ r r' bf, mountedSb.Quiet ∧
      run step (begin mountedSb) (recordOnce ++ [.recycle 51]) = some r ∧
      r.recorded 51 = some (.data 1) ∧ step r (.bread block51) = some r' ∧
      r'.sb.dev.buf 51 = some bf ∧ bf.data = .data 0 :=
  ⟨_, _, _, ⟨rfl, rfl, rfl, rfl⟩, rfl, rfl, rfl, rfl, rfl⟩

end Argentum.Agfs.TxCache
