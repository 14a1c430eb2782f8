/-
# Agfs.BitmapCrash — the bitmap a crash leaves with the metadata it leaves

The bitmap is not journalled: a flush writes it out whole, behind the superblock that
publishes the batch. After a crash and the replay, the blocks that the recovered
metadata uses should all be marked in the bitmap on disk.

Which blocks a metadata content uses is a parameter (`Usage`). The callers keep the
blocks in use marked in the cached bitmap between operations (`Disciplined`). Then
`bitmap_sound` holds of every crash, but for two windows:

* phase B writes block 0 first and the bitmap blocks after it, so the batch is
  published while the blocks it has newly taken are still free on disk (`Window`);
* a commit that must close an older batch first writes the bitmap with its own frees
  in it, while the metadata that stops using those blocks is not published
  (`KeepsMarks`).

`published_before_bitmap` is a crash in the first window.
-/
import Argentum.Agfs.CrashRecovery

namespace Argentum.Agfs.BitmapCrash

open Lib.WriteLog Lib.Machine Fs Dev Sb Agfs.Inv LogInv
open BlockFormat (bitsPerBlock bit_bits bitsPerBlock_pos)
open Agfs.CrashRecovery (Tx content content_snoc)

/-- Which blocks a metadata content uses. -/
structure Usage (g : Geometry) (D : Type) where
  inUse : (Nat → D) → Nat → Prop
  reads : ∀ m m', (∀ b, g.IsMeta b → m b = m' b) → ∀ b, inUse m b → inUse m' b

/-! ## The machine -/

inductive Op (g : Geometry) (D : Type) where
  /-- A transaction with the allocator calls made inside it. -/
  | tx (calls : List Space.Call) (t : Tx g D)
  /-- Allocator calls outside a transaction. -/
  | calls (calls : List Space.Call)
  /-- `agfs_log_flush`. -/
  | barrier

structure Session (g : Geometry) (D : Type) where
  sb : Sb D
  txs : List (Tx g D)

variable {D : Type} {g : Geometry} [BlockFormat D]

def step (r : Session g D) : Op g D → Option (Session g D)
  | .tx calls t =>
    some { sb := (t.writes.foldl (fun sb w => sb.update w true)
              (r.sb.logBegin.allocate g calls)).logCommit g
           txs := r.txs ++ [t] }
  | .calls calls => some { r with sb := r.sb.allocate g calls }
  | .barrier => some { r with sb := r.sb.logFlush g }

/-! ## Marked blocks -/

/-- The bitmap marks every block of the volume that `m` uses. -/
def Covers (u : Usage g D) (m : Nat → D) (bitmap : Nat → Bool) : Prop :=
  ∀ b < g.numBlocks, u.inUse m b → bitmap (g.bitOffset (bitsPerBlock D) b) = true

/-- A mount of this disk succeeds, and marks on disk what the recovered metadata uses. -/
def Sound (u : Usage g D) (m : Nat → D) : Prop :=
  ∃ sb, mount g m = .ok sb ∧ Covers u sb.dev.disk (diskBitmap sb.dev.disk)

section Marks

variable {u : Usage g D} {m m' target : Nat → D} {bitmap : Nat → Bool}

theorem Covers.congr (covers : Covers u m bitmap)
    (same : ∀ b, g.IsMeta b → m' b = m b) : Covers u m' bitmap := fun b inside used =>
  covers b inside (u.reads m' m same b used)

variable (whole : g.BitmapCovers (bitsPerBlock D))
include whole

theorem Covers.imp {bitmap' : Nat → Bool} (covers : Covers u m bitmap)
    (marks : ∀ off < g.bitmapBlocks * bitsPerBlock D,
      bitmap off = true → bitmap' off = true) : Covers u m bitmap' := fun b inside used =>
  marks _ (whole b inside) (covers b inside used)

/-- Only the bitmap blocks count. -/
theorem Covers.of_same (covers : Covers u target (diskBitmap m))
    (same : ∀ b, 1 ≤ b → b < 1 + g.bitmapBlocks → m' b = m b) :
    Covers u target (diskBitmap m') := by
  refine covers.imp whole fun off inside marked => ?_
  have block := Nat.div_lt_of_lt_mul (by rwa [Nat.mul_comm])
  rw [diskBitmap, same _ (Nat.le_add_right _ _) (Nat.add_lt_add_left block 1)]
  exact marked

theorem sound_of_restores {es : Entries D} (restores : Restores g m es target)
    (covers : Covers u target (diskBitmap m)) : Sound u m := by
  obtain ⟨sb, mounts, fresh⟩ := mount_publishes g restores.published
  refine ⟨sb, mounts, ?_⟩
  rw [fresh.onDisk]
  have recovered := covers.congr restores.content
  refine recovered.of_same whole fun b _ low => putAll_of_not_mem m fun replayed => ?_
  obtain ⟨d, found⟩ := mem_keys.mp replayed
  obtain ⟨e, inBatch, inEntry⟩ := List.mem_flatten.mp found
  have := ((restores.published.good e inBatch).isMeta _ inEntry).1
  omega

end Marks

/-! ## A flush -/

/-- A crash after `k` writes of a flush with `a` log blocks in its batch: a bitmap
block it has not reached yet marks nothing that the disk has free. -/
def Window (g : Geometry) (a : Nat) (bitmap : Nat → Bool) (disk : Nat → D) (k : Nat) : Prop :=
  a < k → ∀ j < g.bitmapBlocks, k ≤ a + 1 + j → ∀ i < bitsPerBlock D,
    bitmap (j * bitsPerBlock D + i) = true → BlockFormat.bit (disk (1 + j)) i = true

section Flush

variable {u : Usage g D} {sb : Sb D} {v : View D}

/-- A bitmap block that was written holds the cached bits. -/
theorem diskBitmap_written {m : Nat → D} {ws : Writes D} {off : Nat}
    (image : ∀ w ∈ ws, w.1 ≠ 0 → w.1 < 1 + g.bitmapBlocks → w ∈ sb.bitmapImage g)
    (inside : off / bitsPerBlock D < g.bitmapBlocks)
    (written : 1 + off / bitsPerBlock D ∈ keys ws) :
    diskBitmap (putAll m ws) off = sb.space.bitmap off := by
  have found := image _ (putAll_mem m written) (by simp) (by simpa using inside)
  obtain ⟨i, _, shape⟩ := List.mem_map.mp found
  have index : i = off / bitsPerBlock D := by
    have := congrArg Prod.fst shape
    omega
  subst index
  have content := congrArg Prod.snd shape
  simp only at content
  rw [diskBitmap, ← content, bit_bits _ _ (Nat.mod_lt _ bitsPerBlock_pos)]
  congr 1
  rw [Nat.mul_comm]
  exact Nat.div_add_mod _ _

theorem batch_length (inv : Inv g sb v []) :
    (batchBlocks g sb v.pending).length = sb.logPendBlocks := by
  have counted : (keys (batchBlocks g sb v.pending)).length = sb.logPendBlocks := by
    rw [batchBlocks, keys_blocksFrom, List.length_range', inv.size]
  rwa [keys, List.length_map] at counted

/-- Phase B reaches the bitmap blocks in order. -/
theorem mem_take_bitmapImage {rest : Writes D} {i j : Nat} (inside : j < g.bitmapBlocks)
    (reached : j < i) : 1 + j ∈ keys ((sb.bitmapImage g ++ rest).take i) := by
  have place : (keys ((sb.bitmapImage g ++ rest).take i))[j]? = some (1 + j) := by
    rw [keys, List.map_take, ← keys, keys_append, keys_bitmapImage,
      List.getElem?_take_of_lt reached, List.getElem?_append_left (by simpa using inside),
      List.getElem?_range' inside, Nat.one_mul]
  exact List.mem_of_getElem? place

variable (whole : g.BitmapCovers (bitsPerBlock D))
include whole

variable (inv : Inv g sb v []) (onDisk : Covers u v.settled (diskBitmap sb.dev.disk))
  (memory : sb.logPending = true → Covers u v.current sb.space.bitmap)

include inv onDisk memory

/-- A crash inside a flush, outside the window. -/
theorem flush_sound {k : Nat}
    (window : sb.logPending = true → Window g sb.logPendBlocks sb.space.bitmap sb.dev.disk k) :
    Sound u (crashDisk sb.dev (sb.flushLocked g).dev k) := by
  by_cases none : v.pending = []
  · rw [flushLocked_idle g sb (inv.idle none), crashDisk, List.drop_length, List.take_nil]
    exact sound_of_restores whole inv.restores onDisk
  obtain ⟨logged, rest, parts⟩ := inv.flush_parts none
  have batch := parts.logged_eq.trans inv.staged.selected
  have count : logged.length = sb.logPendBlocks := by rw [batch, batch_length inv]
  have logKeys : ∀ b ∈ keys logged, 1 + g.bitmapBlocks ≤ b := by
    intro b member
    rw [batch] at member
    exact inv.batch_ge member
  rw [crashDisk, parts.wrote.new_eq]
  by_cases phaseA : k ≤ logged.length
  · -- before the superblock write: nothing has changed
    rw [List.take_append_of_le_length phaseA]
    refine sound_of_restores whole (inv.phaseA parts k) (onDisk.of_same whole fun b _ low => ?_)
    refine putAll_of_not_mem _ fun written => ?_
    obtain ⟨d, member⟩ := mem_keys.mp written
    have := logKeys b (mem_keys.mpr ⟨d, List.mem_of_mem_take member⟩)
    omega
  · obtain ⟨i, rfl⟩ : ∃ i, k = logged.length + 1 + i := ⟨k - logged.length - 1, by omega⟩
    have cut : (logged ++ publishSuper sb :: (sb.bitmapImage g ++ rest)).take
        (logged.length + 1 + i) =
        logged ++ publishSuper sb :: (sb.bitmapImage g ++ rest).take i := by
      rw [Nat.add_assoc, List.take_length_add_append, Nat.add_comm 1, List.take_succ_cons]
    rw [cut, putAll_append, putAll_cons]
    refine sound_of_restores whole (inv.phaseC parts i)
      ((memory (inv.flagged.mpr none)).imp whole fun off inside marked => ?_)
    have block := Nat.div_lt_of_lt_mul (by rwa [Nat.mul_comm])
    by_cases written : 1 + off / bitsPerBlock D ∈ keys ((sb.bitmapImage g ++ rest).take i)
    · rw [diskBitmap_written
        (fun w member => parts.rest_bitmap w (List.mem_of_mem_take member)) block written]
      exact marked
    · -- not reached yet: the window says the bit is there already
      have late : i ≤ off / bitsPerBlock D := by
        by_contra early
        refine written (mem_take_bitmapImage block (Nat.lt_of_not_le early))
      have old := window (inv.flagged.mpr none) (by omega) _ block (by omega)
        (off % bitsPerBlock D) (Nat.mod_lt _ bitsPerBlock_pos)
        (by rwa [Nat.mul_comm, Nat.div_add_mod])
      rw [diskBitmap, putAll_of_not_mem _ written, publishSuper, put_of_ne _ _ (by omega),
        putAll_of_not_mem _ fun inLog => by have := logKeys _ inLog; omega]
      exact old

/-- A flush that completes leaves the cached bitmap on disk. -/
theorem flush_covers : Covers u v.current (diskBitmap (sb.flushLocked g).dev.disk) := by
  by_cases none : v.pending = []
  · rw [flushLocked_idle g sb (inv.idle none)]
    refine onDisk.congr fun b isMeta => ?_
    rw [inv.current b isMeta, none, List.flatten_nil, putAll_nil]
  · obtain ⟨logged, rest, parts⟩ := inv.flush_parts none
    rw [parts.final]
    refine (memory (inv.flagged.mpr none)).imp whole fun off inside marked => ?_
    have block := Nat.div_lt_of_lt_mul (by rwa [Nat.mul_comm])
    have written : 1 + off / bitsPerBlock D ∈ keys ((sb.bitmapImage g ++ rest).take
        (g.bitmapBlocks + rest.length)) :=
      mem_take_bitmapImage block
        (Nat.lt_of_lt_of_le block (Nat.le_add_right g.bitmapBlocks rest.length))
    rw [List.take_of_length_le (by simp [bitmapImage])] at written
    rw [diskBitmap_written parts.rest_bitmap block written]
    exact marked

end Flush

/-! ## A commit -/

/-- The commit of `n` blocks has to close the pending batch before its own entry. -/
def ClosesFirst (g : Geometry) (sb : Sb D) (n : Nat) : Prop :=
  sb.logPending = true ∧ (g.logLen < sb.logEnd + n + 1 ∨ logBatchBlocks < sb.logPendBlocks + n + 1)

/-- The crash after `k` writes of the commit of `n` blocks is outside the window of
the flush it makes, if it makes one: of the old batch, or of the batch it fills. -/
def CommitWindow (g : Geometry) (sb : Sb D) (bitmap : Nat → Bool) (n k : Nat) : Prop :=
  (ClosesFirst g sb n → Window g sb.logPendBlocks bitmap sb.dev.disk k) ∧
    (sb.logEnd + n + 1 ≤ g.logLen → sb.logPendBlocks + n + 1 = logBatchBlocks →
      Window g logBatchBlocks bitmap sb.dev.disk k)

section Commit

variable {u : Usage g D} {sb : Sb D} {v : View D}
variable (whole : g.BitmapCovers (bitsPerBlock D))
include whole

variable (inv : Inv g sb v [])

include inv

theorem wrap_covers (none : v.pending = []) (onDisk : Covers u v.settled (diskBitmap sb.dev.disk)) :
    Covers u v.settled (diskBitmap sb.wrap.dev.disk) := by
  refine onDisk.of_same whole fun b positive _ => ?_
  rw [wrap_disk inv none]
  exact put_of_ne _ _ (by omega)

/-- A crash between the flush and the wrap behind it, or after the wrap. -/
theorem wrap_sound (none : v.pending = [])
    (onDisk : Covers u v.settled (diskBitmap sb.dev.disk)) (k : Nat) :
    Sound u (crashDisk sb.dev sb.wrap.dev k) := by
  have wrote := inv.wrap_wrote
  rw [dirtyWrites_nil inv none, List.nil_append] at wrote
  rw [crashDisk, wrote.new_eq]
  cases k with
  | zero => exact sound_of_restores whole inv.restores onDisk
  | succ k =>
    rw [List.take_succ_cons, List.take_nil, ← wrote.disk]
    exact sound_of_restores whole (wrap_restores inv none) (wrap_covers whole inv none onDisk)

theorem commit_sound (ok : EntryOk g sb.tx)
    (fits : sb.tx.length + 1 ≤ g.logLen) (safe : Inv.SafeWrap g sb (keys sb.tx) sb.tx.length)
    (onDisk : Covers u v.settled (diskBitmap sb.dev.disk))
    (before : ClosesFirst g sb sb.tx.length → Covers u v.current sb.space.bitmap)
    (after : Covers u (putAll v.current sb.tx) sb.space.bitmap) :
    (∃ v', Inv g (sb.commitLogged g) v' [] ∧ v'.current = putAll v.current sb.tx ∧
      Covers u v'.settled (diskBitmap (sb.commitLogged g).dev.disk)) ∧
    ∀ k, CommitWindow g sb sb.space.bitmap sb.tx.length k →
      Sound u (crashDisk sb.dev (sb.commitLogged g).dev k) := by
  have stores : ∀ sb' : Sb D, (sb'.appendEntry g).freeTx.dev.writes = sb'.dev.writes ∧
      (sb'.appendEntry g).freeTx.dev.disk = sb'.dev.disk := fun sb' => by
    simp [appendEntry, freeTx]
  have upTo : ∀ (sb' : Sb D) (k : Nat),
      crashDisk sb.dev (sb'.appendEntry g).freeTx.dev k = crashDisk sb.dev sb'.dev k :=
    fun sb' k => by rw [crashDisk, (stores sb').1, crashDisk]
  obtain ⟨_, _, logEnd, tx⟩ := flushLocked_rest g sb inv.unused
  obtain ⟨full, done⟩ | ⟨room, overrun, done⟩ | ⟨room, _, done⟩ | ⟨room, equal, done⟩ :=
    commitLogged_cases g sb ok.small inv.unused <;> rw [done]
  · -- the old batch is flushed, the log given up, and the entry written to its front
    have memory : sb.logPending = true → Covers u v.current sb.space.bitmap :=
      fun pending => before ⟨pending, .inl full⟩
    obtain ⟨v₁, inv₁, none, settled, current⟩ := inv.flush_wrap ok safe full
    have onDisk₁ : Covers u v₁.settled (diskBitmap (sb.flushLocked g).dev.disk) := by
      rw [settled]
      exact flush_covers whole inv onDisk memory
    have tx' : (sb.flushLocked g).wrap.tx = sb.tx := tx
    have inv₃ := (inv₁.wrap none).appended (by rw [tx']; exact ok) (by simp) (by
      show 0 + (sb.flushLocked g).wrap.tx.length + 1 ≤ g.logLen
      rw [tx']
      omega)
    rw [tx'] at inv₃
    refine ⟨⟨_, inv₃, by rw [extended, wrapped, current], ?_⟩, fun k window => ?_⟩
    · rw [(stores _).2]
      show Covers u v₁.settled _
      exact wrap_covers whole inv₁ none onDisk₁
    · obtain ⟨ws, wrote, _⟩ := inv.flush_through
      rw [upTo, crashDisk_split wrote inv₁.wrap_wrote]
      split
      · exact flush_sound whole inv onDisk memory
          fun pending => window.1 ⟨pending, .inl full⟩
      · exact wrap_sound whole inv₁ none onDisk₁ _
  · -- the old batch is flushed, and the entry starts a new one
    have closes : ClosesFirst g sb sb.tx.length := ⟨overrun.1, .inr overrun.2⟩
    have memory := before closes
    obtain ⟨v₁, inv₁, _, settled, current⟩ := inv.flushLocked fun b member _ => member
    have inv₂ := inv₁.appended (tx ▸ ok) (by rw [tx]; exact fun b member => member)
      (by rw [Sb.Room, logEnd, tx]; exact room)
    rw [tx] at inv₂
    refine ⟨⟨_, inv₂, by rw [extended, current], ?_⟩, fun k window => ?_⟩
    · rw [(stores _).2]
      show Covers u v₁.settled _
      rw [settled]
      exact flush_covers whole inv onDisk fun _ => memory
    · rw [upTo]
      exact flush_sound whole inv onDisk (fun _ => memory) fun _ => window.1 closes
  · refine ⟨⟨_, inv.appended ok (by simp) room, rfl, ?_⟩, fun k _ => ?_⟩
    · rw [(stores sb).2]
      exact onDisk
    · rw [upTo, crashDisk, List.drop_length, List.take_nil]
      exact sound_of_restores whole inv.restores onDisk
  · -- the entry fills its batch, which is flushed with it
    have inv₁ := inv.appended ok (by simp) room
    have batch : (extended v sb.tx).pending ≠ [] := by simp [extended]
    have onDisk₁ : Covers u (extended v sb.tx).settled
        (diskBitmap (sb.appendEntry g).freeTx.dev.disk) := by
      rw [(stores sb).2]
      exact onDisk
    refine ⟨⟨_, inv₁.flush batch (by simp [freeTx]), rfl, ?_⟩, fun k window => ?_⟩
    · exact flush_covers whole inv₁ onDisk₁ fun _ => after
    rw [crashDisk_still (stores sb).1 (stores sb).2]
    refine flush_sound whole inv₁ onDisk₁ (fun _ => after) fun _ => ?_
    have size : (sb.appendEntry g).freeTx.logPendBlocks = logBatchBlocks := equal
    rw [size, (stores sb).2]
    exact window.2 room equal

end Commit

/-! ## Sessions -/

def begin (sb : Sb D) : Session g D := { sb := sb, txs := [] }

/-- The caller's part: after the operation, what the metadata uses is marked in the
cached bitmap. -/
def Disciplined (u : Usage g D) (disk : Nat → D) (r : Session g D) (op : Op g D) : Prop :=
  ∀ r', step r op = some r' → Covers u (content disk r'.txs) r'.sb.space.bitmap

/-- A transaction that has to close an older batch frees no block. -/
def KeepsMarks (r : Session g D) (calls : List Space.Call) (t : Tx g D) : Prop :=
  t.writes ≠ [] → ClosesFirst g r.sb (keys t.writes).toFinset.card →
    ∀ b < g.numBlocks, r.sb.space.test g (bitsPerBlock D) b = true →
      (r.sb.allocate g calls).space.test g (bitsPerBlock D) b = true

def SafeOp (r : Session g D) : Op g D → Prop
  | .tx calls t =>
    Inv.SafeWrap g r.sb (keys t.writes) (keys t.writes).toFinset.card ∧ KeepsMarks r calls t
  | _ => True

/-- The crash after `k` block writes of the operation is outside the window. -/
def SafeCrash (r : Session g D) : Op g D → Nat → Prop
  | .tx calls t, k => t.writes ≠ [] →
      CommitWindow g r.sb (r.sb.allocate g calls).space.bitmap (keys t.writes).toFinset.card k
  | .calls _, _ => True
  | .barrier, k => r.sb.logPending = true →
      Window g r.sb.logPendBlocks r.sb.space.bitmap r.sb.dev.disk k

def Good (u : Usage g D) (disk : Nat → D) (r : Session g D) : Prop :=
  r.sb.Quiet ∧ ∃ v, Inv g r.sb v [] ∧ v.current = content disk r.txs ∧
    Covers u v.settled (diskBitmap r.sb.dev.disk) ∧ Covers u v.current r.sb.space.bitmap

section Session

variable {u : Usage g D} {disk : Nat → D}

/-- The journal does not look at the allocator's fields. -/
theorem inv_allocate {sb : Sb D} {v : View D} (inv : Inv g sb v []) (calls : List Space.Call) :
    Inv g (sb.allocate g calls) v [] :=
  { inv.toLogInv.aside .same with
    staged := inv.staged
    settled := inv.settled
    untouched := inv.untouched
    current := inv.current
    cached := inv.cached
    ahead := inv.ahead
    batch := inv.batch
    marked := inv.marked }

variable (whole : g.BitmapCovers (bitsPerBlock D)) {r r' : Session g D}
include whole

theorem tx_good (roomy : logMaxBlocks < g.logLen) (good : Good u disk r)
    {calls : List Space.Call} {t : Tx g D} (safe : SafeOp r (.tx calls t))
    (disciplined : Disciplined u disk r (.tx calls t)) (taken : step r (.tx calls t) = some r') :
    Good u disk r' ∧ ∀ k, SafeCrash r (.tx calls t) k →
      Sound u (crashDisk r.sb.dev r'.sb.dev k) := by
  obtain ⟨quiet, v, inv, current, onDisk, memory⟩ := good
  have marked := disciplined r' taken
  have taken' : some (⟨(r.sb.allocate g calls).transact g t.writes, r.txs ++ [t]⟩ : Session g D) =
      some r' := taken
  cases taken'
  have inv₀ := inv_allocate inv calls
  have quiet₀ : (r.sb.allocate g calls).Quiet :=
    quiet.rest
  have size := recordAll_length t.writes
  have small : (recordAll [] t.writes).length ≤ logMaxBlocks := size ▸ t.fits
  have fits : (recordAll [] t.writes).length + 1 ≤ g.logLen := by omega
  have next : putAll v.current (recordAll [] t.writes) = content disk (r.txs ++ [t]) := by
    rw [putAll_recordAll _ (by simp), putAll_nil, content_snoc, current]
  by_cases none : t.writes = []
  · have same : (r.sb.allocate g calls).transact g t.writes = r.sb.allocate g calls := by
      rw [none, transact_nil g quiet₀]
    simp only [same] at marked ⊢
    have unchanged : v.current = content disk (r.txs ++ [t]) := by
      rw [content_snoc, none, putAll_nil, current]
    refine ⟨⟨quiet₀, v, inv₀, unchanged, onDisk, unchanged ▸ marked⟩, fun k _ => ?_⟩
    show Sound u (crashDisk r.sb.dev r.sb.dev k)
    rw [crashDisk, List.drop_length, List.take_nil]
    exact sound_of_restores whole inv.restores onDisk
  · have some : recordAll [] t.writes ≠ [] := by
      intro empty
      have zero : (keys t.writes).toFinset.card = 0 := by rw [← size, empty, List.length_nil]
      exact none (by simpa [keys] using zero)
    have same := transact_logged quiet₀ small some fits
    have opened := inv₀.recorded quiet.tx t.isMeta 0
    have touched := touched_foldl inv.linked t.writes
    have ok : EntryOk g (recordAll [] t.writes) := by
      refine ⟨some, small, fun w member => ?_⟩
      have key := mem_keys.mpr ⟨w.2, member⟩
      rw [mem_keys_recordAll] at key
      obtain ⟨d, found⟩ := mem_keys.mp (key.resolve_left (by simp))
      exact t.isMeta (w.1, d) found
    simp only [same] at marked ⊢
    rw [commitLogged_space] at marked
    obtain ⟨⟨v', inv', current', onDisk'⟩, crash⟩ := commit_sound whole opened ok fits
      (by
        intro pending full b member linked
        rw [mem_keys_recordAll] at member
        have old : b ∈ r.sb.dev.dirtyList := touched.dirtyList ▸ linked
        exact safe.1 pending (size ▸ full) b (member.resolve_left (by simp)) old)
      (by
        show Covers u v.settled (diskBitmap (t.writes.foldl touch r.sb.dev).disk)
        rw [touched.disk]
        exact onDisk)
      (fun closes b inside used => by
        have closes' : ClosesFirst g r.sb (keys t.writes).toFinset.card := size ▸ closes
        exact safe.2 none closes' b inside (memory b inside used))
      (by rw [next]; exact marked)
    refine ⟨⟨commitLogged_quiet g _ rfl quiet.poisoned quiet.draining, v', inv',
      current'.trans next, onDisk', ?_⟩, fun k window => ?_⟩
    · rw [commitLogged_space, current', next]
      exact marked
    · rw [crashDisk_still touched.writes touched.disk]
      refine crash k ?_
      have outside := window none
      rw [← size, CommitWindow, ← touched.disk] at outside
      exact outside

theorem step_good (roomy : logMaxBlocks < g.logLen) {op : Op g D}
    (good : Good u disk r) (safe : SafeOp r op) (disciplined : Disciplined u disk r op)
    (taken : step r op = some r') :
    Good u disk r' ∧ ∀ k, SafeCrash r op k → Sound u (crashDisk r.sb.dev r'.sb.dev k) := by
  cases op with
  | tx calls t => exact tx_good whole roomy good safe disciplined taken
  | calls calls =>
    have marked := disciplined r' taken
    obtain ⟨quiet, v, inv, current, onDisk, _⟩ := good
    cases taken
    refine ⟨⟨quiet.rest, v, inv_allocate inv calls,
      current, onDisk, current ▸ marked⟩, fun k _ => ?_⟩
    show Sound u (crashDisk r.sb.dev r.sb.dev k)
    rw [crashDisk, List.drop_length, List.take_nil]
    exact sound_of_restores whole inv.restores onDisk
  | barrier =>
    obtain ⟨quiet, v, inv, current, onDisk, memory⟩ := good
    cases taken
    refine ⟨⟨logFlush_quiet g r.sb quiet, ?_⟩, fun k window => ?_⟩
    · have leaks : ∀ b ∈ keys r.sb.tx, b ∈ r.sb.dev.dirtyList → b ∈ [] := by simp [quiet.tx]
      obtain ⟨v', inv', _, settled', current'⟩ := inv.flushLocked leaks
      refine ⟨v', inv', current'.trans current, ?_, ?_⟩
      · rw [settled']
        exact flush_covers whole inv onDisk fun _ => memory
      · rw [current']
        show Covers u v.current (r.sb.flushLocked g).space.bitmap
        rw [(flushLocked_carries g r.sb).space]
        exact memory
    · exact flush_sound whole inv onDisk (fun _ => memory) window

/-- **After a crash and the replay, every block the recovered metadata uses is marked
in the bitmap on disk**, in every session of disciplined callers whose operations and
whose crash keep out of the windows. -/
theorem bitmap_sound (roomy : logMaxBlocks < g.logLen) (published : Publishes g disk [])
    (formatted : Covers u disk (diskBitmap disk)) {sb : Sb D} (mounts : mount g disk = .ok sb)
    {ops : List (Op g D)} {op : Op g D} {r r' : Session g D} {k : Nat}
    (disciplined : Guarded step (Disciplined u disk) (begin sb) (ops ++ [op]))
    (safe : Guarded step SafeOp (begin sb) (ops ++ [op]))
    (ran : run step (begin sb) ops = some r) (taken : step r op = some r')
    (outside : SafeCrash r op k) :
    ∃ sb', mount g (Dev.crashDisk r.sb.dev r'.sb.dev k) = .ok sb' ∧
      ∀ b < g.numBlocks, u.inUse sb'.dev.disk b →
        diskBitmap sb'.dev.disk (g.bitOffset (bitsPerBlock D) b) = true := by
  have start : Good u disk (begin sb) := by
    obtain ⟨sb', mounts', fresh⟩ := mount_publishes g published
    obtain ⟨sb'', mounts'', mounted, same⟩ := CrashRecovery.mounted_of_empty published
    obtain rfl := Except.ok.inj (mounts'.symm.trans mounts)
    obtain rfl := Except.ok.inj (mounts''.symm.trans mounts)
    have inv := mounted.inv
    rw [same] at inv
    refine ⟨mounted.quiet, _, inv, rfl, ?_, ?_⟩
    · show Covers u disk (diskBitmap sb''.dev.disk)
      rw [same]
      exact formatted
    · show Covers u disk sb''.space.bitmap
      rw [fresh.bitmap]
      exact formatted
  have guarded := disciplined.and safe
  have good := run_inv
      (fun s a s' good both taken => (step_good whole roomy good both.2 both.1 taken).1)
      start guarded.append_left ran
  have last := (guarded.append_right ran).1
  exact (step_good whole roomy good last.2 last.1 taken).2 k outside

end Session

/-! ## Poles -/

/-- The small volume with its first 52 blocks marked, block 51 being its metadata. -/
def formattedDisk : Nat → PlainBlock := fun b =>
  if b = 1 then .bitmap (List.replicate 52 true ++ List.replicate 76 false) else blankDisk b

def formattedSb : Sb PlainBlock := ready smallGeometry (loadSb smallGeometry formattedDisk)

/-- Block 51 names the one block in use. -/
def pointer : Usage smallGeometry PlainBlock where
  inUse m b := b ≠ 0 ∧ m 51 = .data b
  reads m m' same b used := ⟨used.1, (same 51 (by decide)).symm.trans used.2⟩

/-- Point at block 52. -/
def pointTx : Tx smallGeometry PlainBlock where
  writes := [(51, .data 52)]
  isMeta := by decide
  fits := by decide

/-- Take the first free block, which is 52, and point at it. -/
def takeBlock : Op smallGeometry PlainBlock := .tx [.balloc] pointTx

def takenSb : Sb PlainBlock := (formattedSb.allocate smallGeometry [.balloc]).transact smallGeometry
  pointTx.writes

theorem formattedDisk_published : Publishes smallGeometry formattedDisk [] :=
  ⟨by simp, List.forall_mem_nil _, rfl, by decide⟩

theorem formattedDisk_covers : Covers pointer formattedDisk (diskBitmap formattedDisk) := by
  rintro b _ ⟨positive, points⟩
  have zero := points
  cases zero
  exact absurd rfl positive

theorem takeBlock_disciplined :
    Guarded step (Disciplined pointer formattedDisk) (begin formattedSb)
      ([takeBlock] ++ [.barrier]) := by
  have marked : takenSb.space.bitmap 52 = true ∧
      (takenSb.logFlush smallGeometry).space.bitmap 52 = true := by decide +kernel
  have points : ∀ b, pointer.inUse (content formattedDisk [pointTx]) b → b = 52 := by
    rintro b ⟨_, points⟩
    have here := points
    cases here
    rfl
  refine ⟨fun r taken => ?_, fun r taken => ⟨fun r' taken' => ?_, fun _ _ => trivial⟩⟩
  · cases taken
    intro b _ used
    cases points b used
    exact marked.1
  · cases taken
    cases taken'
    intro b _ used
    cases points b used
    exact marked.2

theorem takeBlock_safe : Guarded step SafeOp (begin formattedSb) ([takeBlock] ++ [.barrier]) :=
  ⟨⟨fun pending => absurd pending (by decide), fun _ closes => absurd closes.1 (by decide)⟩,
    fun _ _ => ⟨trivial, fun _ _ => trivial⟩⟩

/-- A crash right after the bitmap block was written. -/
theorem bitmap_sound_after_bitmap :
    ∃ sb', mount smallGeometry (Dev.crashDisk takenSb.dev (takenSb.logFlush smallGeometry).dev 4) =
        .ok sb' ∧
      ∀ b < smallGeometry.numBlocks, pointer.inUse sb'.dev.disk b →
        diskBitmap sb'.dev.disk (smallGeometry.bitOffset (bitsPerBlock PlainBlock) b) =
          true := by
  have whole : smallGeometry.BitmapCovers (bitsPerBlock PlainBlock) := by decide
  refine bitmap_sound whole (by decide) formattedDisk_published formattedDisk_covers rfl
    takeBlock_disciplined takeBlock_safe rfl rfl ?_
  intro _ _ j inside reached
  have batch : takenSb.logPendBlocks = 2 := by decide +kernel
  have blocks : smallGeometry.bitmapBlocks = 1 := rfl
  change 4 ≤ takenSb.logPendBlocks + 1 + j at reached
  omega

/-- The disk after the two log blocks and the superblock of the flush. -/
def unmarkedDisk : Nat → PlainBlock :=
  Dev.crashDisk takenSb.dev (takenSb.logFlush smallGeometry).dev 3

theorem unmarkedDisk_mounts :
    (match mount smallGeometry unmarkedDisk with
      | .ok sb => sb.dev.disk 51 == .data 52 && !diskBitmap sb.dev.disk 52
      | .error _ => false) = true := by
  decide +kernel

/-- **The batch is published before its blocks are marked**: a crash between the
superblock write and the bitmap write of a flush recovers metadata that points at
block 52, which the bitmap on disk has free. -/
theorem published_before_bitmap :
    ∃ (r r' : Session smallGeometry PlainBlock) (k : Nat) (sb' : Sb PlainBlock),
      logMaxBlocks < smallGeometry.logLen ∧
      smallGeometry.BitmapCovers (bitsPerBlock PlainBlock) ∧
      Publishes smallGeometry formattedDisk [] ∧
      Covers pointer formattedDisk (diskBitmap formattedDisk) ∧
      mount smallGeometry formattedDisk = .ok formattedSb ∧
      Guarded step (Disciplined pointer formattedDisk) (begin formattedSb)
        ([takeBlock] ++ [.barrier]) ∧
      run step (begin formattedSb) [takeBlock] = some r ∧ step r .barrier = some r' ∧
      mount smallGeometry (Dev.crashDisk r.sb.dev r'.sb.dev k) = .ok sb' ∧
      pointer.inUse sb'.dev.disk 52 ∧
      diskBitmap sb'.dev.disk (smallGeometry.bitOffset (bitsPerBlock PlainBlock) 52) =
        false := by
  have mounts := unmarkedDisk_mounts
  split at mounts
  · rename_i sb mounted
    rw [Bool.and_eq_true, beq_iff_eq, Bool.not_eq_true'] at mounts
    exact ⟨⟨takenSb, [pointTx]⟩, ⟨takenSb.logFlush smallGeometry, [pointTx]⟩, 3, sb, by decide,
      by decide, formattedDisk_published, formattedDisk_covers, rfl, takeBlock_disciplined, rfl, rfl,
      mounted, ⟨by decide, mounts.1⟩, mounts.2⟩
  · cases mounts

end Argentum.Agfs.BitmapCrash
