/-
# Agfs.Batch — the metadata a crash would recover

`Inv` adds to the log invariant of `Agfs.LogRange` what the log stands for, as long
as metadata reaches the disk only through the journal. It is stated against a `View`:

* `published` — the entries the on-disk superblock points at, and `settled`, the
  metadata a mount would recover from this disk;
* `pending` — the entries of the open batch, and `current`, the metadata with
  those applied, which is what the cache shows.

A flush turns `current` into `settled`, a commit extends `pending`. Outside the pending
blocks the disk already holds the settled content (`untouched`), but for the blocks of
`early`: a flush in the middle of a commit has written a content of the transaction
that is still being committed. The published log repairs such a block, so `Inv.wrap`,
which gives it up, needs `early = []`.
-/
import Argentum.Agfs.LogRange

namespace Argentum.Agfs

open Lib.WriteLog Fs Sb LogInv Dev

/-- What the disk and the cache stand for. -/
structure View (D : Type) where
  settled : Nat → D
  current : Nat → D
  published : Entries D
  pending : Entries D

section Recovery

variable {D : Type} (g : Geometry) [BlockFormat D]

/-- The disk publishes `es`, and with `es` applied its metadata is `target`. -/
structure Restores (disk : Nat → D) (es : Entries D) (target : Nat → D) : Prop where
  published : Publishes g disk es
  content : ∀ b, g.IsMeta b → putAll disk es.flatten b = target b

/-- A mount of this disk succeeds and leaves the metadata `target` on it. -/
def RecoversTo (disk : Nat → D) (target : Nat → D) : Prop :=
  ∃ sb, mount g disk = .ok sb ∧ ∀ b, g.IsMeta b → sb.dev.disk b = target b

variable {g} {disk target : Nat → D} {es : Entries D} {ws : Writes D}

variable (restores : Restores g disk es target)

include restores

theorem Restores.recovers : RecoversTo g disk target := by
  obtain ⟨sb, mounted, fresh⟩ := mount_publishes g restores.published
  exact ⟨sb, mounted, fun b isMeta => by rw [fresh.onDisk, restores.content b isMeta]⟩

section

variable (repeats : ∀ w ∈ ws, w.1 = 0 ∨ w.1 ∈ publishedBlocks g disk es → w.2 = disk w.1)
  (repaired : ∀ w ∈ ws, g.IsMeta w.1 → w.1 ∈ keys es.flatten)

include repeats repaired

/-- Writes that repeat the superblock and the published log, and touch no metadata
block the log does not repair, leave what is recovered as it was. -/
theorem Restores.putAll : Restores g (putAll disk ws) es target := by
  refine ⟨restores.published.putAll repeats, fun b isMeta => ?_⟩
  rw [← restores.content b isMeta]
  refine putAll_congr fun absent => putAll_of_not_mem disk fun written => absent ?_
  obtain ⟨v, member⟩ := mem_keys.mp written
  exact repaired (b, v) member isMeta

/-- The same for every prefix of such writes. -/
theorem Restores.throughout : Throughout (fun m => Restores g m es target) disk ws := fun _ =>
  restores.putAll (fun w member => repeats w (List.mem_of_mem_take member))
    fun w member => repaired w (List.mem_of_mem_take member)

end

end Recovery

/-- The journal invariant; see the head of the module. -/
structure Inv {D : Type} (g : Geometry) [BlockFormat D] (sb : Sb D) (v : View D)
    (early : List Nat) : Prop extends LogInv g sb v.published v.pending where
  staged : sb.dev.Staged (batchBlocks g sb v.pending)
  settled : ∀ b, g.IsMeta b → putAll sb.dev.disk v.published.flatten b = v.settled b
  untouched : ∀ b, g.IsMeta b → b ∉ keys v.pending.flatten → b ∉ early → sb.dev.disk b = v.settled b
  current : ∀ b, g.IsMeta b → v.current b = putAll v.settled v.pending.flatten b
  cached : ∀ b, g.IsMeta b → sb.dev.peek b = putAll v.current sb.tx b
  /-- The next entry goes behind everything published. -/
  ahead : v.published = [] ∨ BlockFormat.logEnd (sb.dev.disk 0) ≤ sb.logEnd
  batch : ∀ b ∈ sb.dev.dirtyList, g.IsMeta b → b ∈ keys v.pending.flatten
  marked : ∀ b ∈ keys v.pending.flatten, b ∈ sb.dev.dirtyList

namespace Inv

variable {D : Type} {g : Geometry} [BlockFormat D] {sb : Sb D} {v : View D} {early : List Nat}

theorem restores (inv : Inv g sb v early) : Restores g sb.dev.disk v.published v.settled :=
  ⟨inv.onDisk, inv.settled⟩

/-- More blocks may be counted as written early. -/
theorem weaken (inv : Inv g sb v []) (early : List Nat) : Inv g sb v early :=
  { inv with untouched := fun b isMeta absent _ => inv.untouched b isMeta absent (by simp) }

theorem clear (inv : Inv g sb v early) (n : Nat) : LogInv.EntryClear sb n := by
  intro p above _ first
  rcases inv.ahead with none | before
  · have range := inv.onDisk.range
    rw [none, batchImage_nil, List.length_nil] at range
    omega
  · omega

/-! ### A flush -/

section Flush

variable {logged rest : Writes D}

/-- Phase A writes nothing a mount would read. -/
theorem phaseA (inv : Inv g sb v early)
    (parts : LogInv.FlushParts g sb v.published v.pending logged rest) :
    Throughout (fun m => Restores g m v.published v.settled) sb.dev.disk logged := by
  refine inv.restores.throughout (fun w member fixed => ?_) fun w member isMeta => ?_
  · rcases fixed with zero | inRange
    · have := inv.batch_ge (parts.logged_mem w member)
      omega
    · exact parts.logged_same w member inRange
  · exact absurd (parts.logged_mem w member) (inv.batch_not_meta isMeta)

/-- The superblock write is the commit point: it turns the recovered metadata from
`settled` to `current`. -/
theorem publish (inv : Inv g sb v [])
    (parts : LogInv.FlushParts g sb v.published v.pending logged rest) :
    Restores g (put (putAll sb.dev.disk logged) (publishSuper sb)) v.pending v.current := by
  refine ⟨parts.published, fun b isMeta => ?_⟩
  rw [inv.current b isMeta]
  refine putAll_congr fun absent => ?_
  have positive : b ≠ 0 := by
    have := isMeta.1
    omega
  have unlogged : b ∉ keys logged := by
    intro written
    obtain ⟨d, member⟩ := mem_keys.mp written
    exact inv.batch_not_meta isMeta (parts.logged_mem _ member)
  rw [publishSuper, put_of_ne _ _ positive, putAll_of_not_mem _ unlogged,
    inv.untouched b isMeta absent (by simp)]

/-- After the superblock write, the rest of phase B and all of phase C only repeat
what is on disk or write blocks the published batch repairs. -/
theorem phaseC (inv : Inv g sb v [])
    (parts : LogInv.FlushParts g sb v.published v.pending logged rest) :
    Throughout (fun m => Restores g m v.pending v.current)
      (put (putAll sb.dev.disk logged) (publishSuper sb)) (sb.bitmapImage g ++ rest) := by
  refine (inv.publish parts).throughout parts.rest_same fun w member isMeta => ?_
  rcases parts.rest_mem w member with linked | low
  · exact inv.batch _ linked isMeta
  · have := isMeta.1
    omega

end Flush

/-- What is recovered during a flush is `settled` up to the superblock write and
`current` from it on. -/
theorem flush_through (inv : Inv g sb v []) :
    sb.dev.Through (fun m => RecoversTo g m v.settled ∨ RecoversTo g m v.current)
      (sb.flushLocked g).dev := by
  by_cases none : v.pending = []
  · rw [flushLocked_idle g sb (inv.idle none)]
    exact Dev.Through.still rfl rfl (.inl inv.restores.recovers)
  · obtain ⟨logged, rest, parts⟩ := inv.flush_parts none
    refine ⟨_, parts.wrote, throughout_append ?_ (throughout_cons ?_ ?_)⟩
    · exact (inv.phaseA parts).mono fun m restores => .inl restores.recovers
    · exact .inl (inv.phaseA parts).last.recovers
    · exact (inv.phaseC parts).mono fun m restores => .inr restores.recovers

/-- The view after the batch is closed. -/
def flushed (v : View D) : View D :=
  { settled := v.current, current := v.current, published := v.pending, pending := [] }

/-- Outside the dirty list a flush leaves the metadata on disk alone. -/
theorem flush_disk (inv : Inv g sb v early) {b : Nat} (isMeta : g.IsMeta b)
    (unlinked : b ∉ sb.dev.dirtyList) : (sb.flushLocked g).dev.disk b = sb.dev.disk b := by
  by_cases none : v.pending = []
  · rw [flushLocked_idle g sb (inv.idle none)]
  obtain ⟨logged, rest, parts⟩ := inv.flush_parts none
  rw [parts.wrote.disk]
  refine putAll_of_not_mem _ fun written => ?_
  rw [keys_append, keys_cons, List.mem_append, List.mem_cons] at written
  have low := isMeta.1
  rcases written with inLog | zero | inRest
  · obtain ⟨d, member⟩ := mem_keys.mp inLog
    exact inv.batch_not_meta isMeta (parts.logged_mem _ member)
  · rw [publishSuper] at zero
    omega
  · obtain ⟨d, member⟩ := mem_keys.mp inRest
    rcases parts.rest_mem _ member with linked | below
    · exact unlinked linked
    · omega

/-- A flush settles the batch. The transaction being committed, if any, may leave
`early` blocks: those it changed in a buffer that was already dirty. -/
theorem flush (inv : Inv g sb v []) (some : v.pending ≠ [])
    (leaks : ∀ b ∈ keys sb.tx, b ∈ sb.dev.dirtyList → b ∈ early) :
    Inv g (sb.flushLocked g) (flushed v) early := by
  have pending := inv.flagged.mpr some
  obtain ⟨logged, rest, parts⟩ := inv.flush_parts some
  have restores : Restores g (sb.flushLocked g).dev.disk v.pending v.current := by
    rw [parts.final]
    exact (inv.phaseC parts).last
  have empty : (sb.flushLocked g).dev.dirtyList = [] := by
    rw [flushLocked_eq g sb pending]
    rfl
  have fields : (sb.flushLocked g).tx = sb.tx ∧ (sb.flushLocked g).logEnd = sb.logEnd := by
    rw [flushLocked_eq g sb pending]
    exact ⟨rfl, rfl⟩
  refine
    { inv.toLogInv.flush some with
      staged := List.forall_mem_nil _
      settled := restores.content
      untouched := ?_
      current := fun _ _ => rfl
      cached := fun b isMeta => by
        rw [flushLocked_meta isMeta, fields.1, inv.cached b isMeta]
        rfl
      ahead := .inr (by rw [fields.2, (inv.flush_range some).2])
      batch := by simp [empty]
      marked := List.forall_mem_nil _ }
  intro b isMeta _ late
  show _ = v.current b
  by_cases member : b ∈ sb.dev.dirtyList
  · have unopened : b ∉ keys sb.tx := fun opened => late (leaks b opened member)
    rw [flushLocked_disk pending (.inl member),
      putAll_of_not_mem _ (not_mem_keys_publishWrites g sb isMeta.1), inv.cached b isMeta,
      putAll_of_not_mem _ unopened]
  · have absent : b ∉ keys v.pending.flatten := fun key => member (inv.marked b key)
    rw [inv.flush_disk isMeta member, inv.untouched b isMeta absent (by simp),
      inv.current b isMeta, putAll_of_not_mem _ absent]

/-- With no batch pending the settled metadata is the current one. -/
theorem settle (inv : Inv g sb v early) (none : v.pending = []) :
    Inv g sb { v with settled := v.current } early := by
  have same : ∀ b, g.IsMeta b → v.current b = v.settled b := fun b isMeta => by
    rw [inv.current b isMeta, none, List.flatten_nil, putAll_nil]
  exact
    { inv with
      settled := fun b isMeta => (inv.settled b isMeta).trans (same b isMeta).symm
      untouched := fun b isMeta absent late =>
        (inv.untouched b isMeta absent late).trans (same b isMeta).symm
      current := fun b isMeta => by rw [none, List.flatten_nil, putAll_nil] }

/-- A flush, whether or not a batch is pending, settles the current metadata. -/
theorem flushLocked (inv : Inv g sb v [])
    (leaks : ∀ b ∈ keys sb.tx, b ∈ sb.dev.dirtyList → b ∈ early) :
    ∃ v', Inv g (sb.flushLocked g) v' early ∧ v'.pending = [] ∧ v'.settled = v.current ∧
      v'.current = v.current := by
  by_cases none : v.pending = []
  · rw [flushLocked_idle g sb (inv.idle none)]
    exact ⟨_, (inv.settle none).weaken early, none, rfl, rfl⟩
  · exact ⟨_, inv.flush none leaks, rfl, rfl, rfl⟩

/-! ### The wrap -/

/-- The view after the log has been given up. -/
def wrapped (v : View D) : View D := { v with published := [], pending := [] }

section Wrap

variable (inv : Inv g sb v []) (none : v.pending = [])
include inv none

theorem dirtyWrites_nil : sb.dev.dirtyWrites = [] := by
  refine List.eq_nil_iff_forall_not_mem.mpr fun w member => ?_
  have linked := (mem_dirtyWrites member).1
  rcases inv.dirty _ linked with isMeta | inBatch
  · have key := inv.batch _ linked isMeta
    simp [none] at key
  · rw [none] at inBatch
    exact absurd inBatch List.not_mem_nil

theorem wrap_disk :
    sb.wrap.dev.disk = put sb.dev.disk (0, BlockFormat.setLog (sb.dev.peek 0) 0 0 sb.flags) := by
  rw [inv.wrap_wrote.disk, dirtyWrites_nil inv none]
  rfl

/-- With every committed block in place, the empty log recovers what the published
one did. -/
theorem wrap_restores : Restores g sb.wrap.dev.disk [] v.settled := by
  rw [wrap_disk inv none]
  refine ⟨publishes_wrap _ _ _, fun b isMeta => ?_⟩
  have positive : b ≠ 0 := by
    have := isMeta.1
    omega
  rw [List.flatten_nil, putAll_nil, put_of_ne _ _ positive]
  exact inv.untouched b isMeta (by simp [none]) (by simp)

theorem wrap_through : sb.dev.Through (fun m => RecoversTo g m v.settled) sb.wrap.dev := by
  have wrote := inv.wrap_wrote
  rw [dirtyWrites_nil inv none] at wrote
  refine ⟨_, wrote, throughout_cons inv.restores.recovers (throughout_nil ?_)⟩
  have restores := wrap_restores inv none
  rw [wrap_disk inv none] at restores
  exact restores.recovers

theorem wrap : Inv g sb.wrap (wrapped v) [] := by
  have restores := wrap_restores inv none
  have inLog : LogInv g sb v.published [] := by
    have log := inv.toLogInv
    rwa [none] at log
  refine
    { inLog.wrap with
      staged := List.forall_mem_nil _
      settled := restores.content
      untouched := fun b isMeta _ _ => by
        have content := restores.content b isMeta
        rwa [List.flatten_nil] at content
      current := fun b isMeta => by
        have same := inv.current b isMeta
        rwa [none] at same
      cached := ?_
      ahead := .inl rfl
      batch := List.forall_mem_nil _
      marked := List.forall_mem_nil _ }
  intro b isMeta
  rw [wrap_meta isMeta, inv.cached b isMeta]
  rfl

end Wrap

/-! ### A transaction and its commit -/

/-- Recording changes buffers, not the disk and not the dirty list. -/
theorem recorded (inv : Inv g sb v []) (closed : sb.tx = []) {ws : Writes D}
    (isMeta : ∀ w ∈ ws, g.IsMeta w.1) (depth : Nat) :
    Inv g { sb with tx := recordAll [] ws, txDepth := depth, dev := ws.foldl touch sb.dev }
      v [] := by
  have touched := touched_foldl inv.linked ws
  have inside : ∀ c, ¬ g.IsMeta c → c ∉ keys ws := fun c outside written => by
    obtain ⟨d, member⟩ := mem_keys.mp written
    exact outside (isMeta _ member)
  have aside : Aside g sb
      { sb with tx := recordAll [] ws, txDepth := depth, dev := ws.foldl touch sb.dev } :=
    ⟨rfl, rfl, rfl, rfl, touched.disk, touched.writes,
      fun c outside => touched.others c (inside c outside),
      fun c member => touched.dirtyList ▸ member,
      fun c member => .inl (touched.dirtyList ▸ member), fun _ => touched.linked⟩
  refine
    { inv.toLogInv.aside aside with
      staged := inv.staged.of_buf fun b member => touched.others b fun written => ?_
      settled := by simpa only [touched.disk] using inv.settled
      untouched := by simpa only [touched.disk] using inv.untouched
      current := inv.current
      cached := ?_
      ahead := by simpa only [touched.disk] using inv.ahead
      batch := by simpa only [touched.dirtyList] using inv.batch
      marked := by simpa only [touched.dirtyList] using inv.marked }
  · obtain ⟨d, found⟩ := mem_keys.mp written
    exact inv.batch_not_meta (isMeta _ found) member
  intro b isMeta
  have before := inv.cached b isMeta
  rw [closed] at before
  rw [touched.peek, putAll_recordAll _ (by simp)]
  exact putAll_congr fun _ => before

/-- The view after an entry joins the batch. -/
def extended (v : View D) (entry : Writes D) : View D :=
  { v with current := putAll v.current entry, pending := v.pending ++ [entry] }

theorem appended (inv : Inv g sb v early) (ok : EntryOk g sb.tx)
    (covered : ∀ b ∈ early, b ∈ keys sb.tx) (room : sb.Room g) :
    Inv g (sb.appendEntry g).freeTx (extended v sb.tx) [] := by
  have flat : (v.pending ++ [sb.tx]).flatten = v.pending.flatten ++ sb.tx := by simp
  have disk : (sb.appendEntry g).freeTx.dev.disk = sb.dev.disk := by
    simp [appendEntry, freeTx]
  refine
    { inv.toLogInv.appended ok room (inv.clear _) with
      staged := ?_
      settled := by rw [disk]; exact inv.settled
      untouched := ?_
      current := ?_
      cached := ?_
      ahead := ?_
      batch := ?_
      marked := ?_ }
  · have txMeta : ∀ b ∈ keys sb.tx, g.IsMeta b := fun b member => by
      obtain ⟨d, found⟩ := mem_keys.mp member
      exact ok.isMeta _ found
    have blocks := inv.batchBlocks_append
    rw [extended, blocks]
    have old := inv.staged.storeAll fun b member => inv.batch_not_entry member
    have new := staged_storeAll sb.dev (blocksFrom_nodup g sb.logEnd (entryImage g sb.tx))
    refine (old.storeAll fun b member inTx => ?_).append (new.storeAll fun b member inTx => ?_)
    · exact inv.batch_not_meta (txMeta b inTx) member
    · exact entry_not_meta room member (txMeta b inTx)
  · intro b isMeta absent _
    rw [extended, flat, keys_append, List.mem_append, not_or] at absent
    rw [disk]
    exact inv.untouched b isMeta absent.1 fun early => absent.2 (covered b early)
  · intro b isMeta
    rw [extended, flat, putAll_append]
    exact putAll_congr fun _ => inv.current b isMeta
  · intro b isMeta
    show (sb.appendEntry g).dev.peek b = putAll v.current sb.tx b
    rw [appendEntry_peek room isMeta]
    exact putAll_congr fun absent => by rw [inv.cached b isMeta, putAll_of_not_mem _ absent]
  · rw [disk]
    refine inv.ahead.imp_right fun before => before.trans ?_
    show sb.logEnd ≤ sb.logEnd + sb.tx.length + 1
    omega
  · intro b member isMeta
    rw [extended, flat, keys_append, List.mem_append]
    simp only [appendEntry, freeTx, mem_storeAll_dirtyList] at member
    rcases member with (old | logged) | inTx
    · exact .inl (inv.batch b old isMeta)
    · obtain ⟨p, _, below, here⟩ := mem_keys_blocksFrom g logged
      rw [entryImage_length] at below
      exact absurd here (g.meta_ne_logBlock isMeta (by omega))
    · exact .inr inTx
  · intro b member
    rw [extended, flat, keys_append, List.mem_append] at member
    simp only [appendEntry, freeTx, mem_storeAll_dirtyList]
    rcases member with old | inTx
    · exact .inl (.inl (inv.marked b old))
    · exact .inr inTx

/-- A crash on the way recovers one of three contents. -/
def Among (g : Geometry) (x y z : Nat → D) (m : Nat → D) : Prop :=
  RecoversTo g m x ∨ RecoversTo g m y ∨ RecoversTo g m z

/-- A commit about to wrap while a batch is pending records no block of that batch. -/
def SafeWrap (g : Geometry) (sb : Sb D) (blocks : List Nat) (n : Nat) : Prop :=
  sb.logPending = true → g.logLen < sb.logEnd + n + 1 → ∀ b ∈ blocks, b ∉ sb.dev.dirtyList

theorem flush_wrap (inv : Inv g sb v []) (ok : EntryOk g sb.tx)
    (safe : SafeWrap g sb (keys sb.tx) sb.tx.length)
    (full : g.logLen < sb.logEnd + sb.tx.length + 1) :
    ∃ v', Inv g (sb.flushLocked g) v' [] ∧ v'.pending = [] ∧ v'.settled = v.current ∧
      v'.current = v.current := by
  refine inv.flushLocked fun b member linked => ?_
  cases pending : sb.logPending with
  | true => exact absurd linked (safe pending full b member)
  | false =>
    have none : v.pending = [] := by
      by_contra some
      exact absurd (pending.symm.trans (inv.flagged.mpr some)) (by decide)
    obtain ⟨d, found⟩ := mem_keys.mp member
    have key := inv.batch b linked (ok.isMeta _ found)
    rwa [none, List.flatten_nil] at key

/-- The whole commit of a non-empty transaction that fits in the log. -/
theorem commit (inv : Inv g sb v []) (ok : EntryOk g sb.tx) (fits : sb.tx.length + 1 ≤ g.logLen)
    (safe : SafeWrap g sb (keys sb.tx) sb.tx.length) :
    ∃ v', Inv g (sb.commitLogged g) v' [] ∧ v'.current = putAll v.current sb.tx ∧
      (v'.settled = v.settled ∨ v'.settled = v.current ∨ v'.settled = v'.current) ∧
      sb.dev.Through (Among g v.settled v.current (putAll v.current sb.tx))
        (sb.commitLogged g).dev := by
  -- an entry that joins a batch writes nothing
  have still : ∀ {sb' : Sb D} {v' : View D} {early : List Nat}, Inv g sb' v' early →
      (v'.settled = v.settled ∨ v'.settled = v.current) →
      sb'.dev.Through (Among g v.settled v.current (putAll v.current sb.tx))
        (sb'.appendEntry g).freeTx.dev := by
    intro sb' v' early inv' settled
    refine Dev.Through.still (by simp [appendEntry, freeTx]) (by simp [appendEntry, freeTx]) ?_
    have recovers := inv'.restores.recovers
    rcases settled with same | same <;> rw [same] at recovers
    · exact .inl recovers
    · exact .inr (.inl recovers)
  have flushes : sb.dev.Through (Among g v.settled v.current (putAll v.current sb.tx))
      (sb.flushLocked g).dev :=
    inv.flush_through.mono fun m => Or.imp_right .inl
  obtain ⟨_, _, logEnd, tx⟩ := flushLocked_rest g sb inv.unused
  obtain ⟨full, done⟩ | ⟨room, _, done⟩ | ⟨room, _, done⟩ | ⟨room, _, done⟩ :=
    commitLogged_cases g sb ok.small inv.unused <;> rw [done]
  · -- flush, wrap, and the entry at the front of the log
    obtain ⟨v₁, inv₁, none, settled, current⟩ := inv.flush_wrap ok safe full
    have inv₂ := inv₁.wrap none
    have inv₃ := inv₂.appended (by rw [show (sb.flushLocked g).wrap.tx = sb.tx from tx]; exact ok)
      (by simp) (by
        show 0 + (sb.flushLocked g).tx.length + 1 ≤ g.logLen
        rw [tx]
        omega)
    rw [show (sb.flushLocked g).wrap.tx = sb.tx from tx] at inv₃
    refine ⟨_, inv₃, by rw [extended, wrapped, current], .inr (.inl settled), ?_⟩
    refine (flushes.trans ((inv₁.wrap_through none).mono fun m recovers => ?_)).trans
      (still inv₂ (.inr settled))
    rw [settled] at recovers
    exact .inr (.inl recovers)
  · -- flush, and the entry starts a batch; its blocks may have been written early
    obtain ⟨v₁, inv₁, _, settled, current⟩ := inv.flushLocked fun b member _ => member
    have inv₂ := inv₁.appended (tx ▸ ok) (by rw [tx]; exact fun b member => member)
      (by rw [Sb.Room, logEnd, tx]; exact room)
    rw [tx] at inv₂
    exact ⟨_, inv₂, by rw [extended, current], .inr (.inl settled),
      flushes.trans (still inv₁ (.inr settled))⟩
  · exact ⟨_, inv.appended ok (by simp) room, rfl, .inl rfl, still inv (.inl rfl)⟩
  -- the entry fills its batch, which is flushed with it
  have inv₁ := inv.appended ok (by simp) room
  have batch : (extended v sb.tx).pending ≠ [] := by simp [extended]
  refine ⟨_, inv₁.flush batch (by simp [freeTx]), rfl, .inr (.inr rfl), ?_⟩
  refine (still inv (.inl rfl)).trans (inv₁.flush_through.mono fun m recovers => ?_)
  exact recovers.imp_right .inr

end Inv

end Argentum.Agfs
