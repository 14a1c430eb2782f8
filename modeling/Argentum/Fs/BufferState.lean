/-
# Fs.BufferState — what a cache is holding back

Properties of the buffer cache that its users keep between operations, with what
each operation does to them:

* `Staged` and `Ready` — given contents wait in their buffers, and a selective
  flush over them puts them on disk;
* `DirtyLinked` and `Coherent` — dirty buffers are on the dirty list, and off the
  list cache and disk agree;
* `Within` — an operation changed only buffers of some blocks and wrote nothing;
* `touch` — a buffer is changed and released without being marked.
-/
import Argentum.Fs.Buffer

namespace Argentum.Fs

open Lib.WriteLog

namespace Dev

variable {D : Type} {vs ws : Writes D} {dev : Dev D}

/-! ## Blocks waiting to be written -/

/-- Each of the writes sits in its block's buffer, dirty and unlocked. -/
def Staged (dev : Dev D) (ws : Writes D) : Prop :=
  ∀ w ∈ ws, dev.buf w.1 = some { data := w.2, dirty := true, locked := false }

theorem Staged.of_buf {dev dev' : Dev D} (staged : dev.Staged ws)
    (same : ∀ b ∈ keys ws, dev'.buf b = dev.buf b) : dev'.Staged ws := fun w member =>
  (same w.1 (mem_keys.mpr ⟨w.2, member⟩)).trans (staged w member)

theorem Staged.append (left : dev.Staged ws)
    (right : dev.Staged vs) : dev.Staged (ws ++ vs) := fun w member =>
  (List.mem_append.mp member).elim (left w) (right w)

theorem Staged.storeAll (staged : dev.Staged ws)
    (apart : ∀ b ∈ keys ws, b ∉ keys vs) : (dev.storeAll vs).Staged ws :=
  staged.of_buf fun b member => storeAll_of_not_mem dev (apart b member)

theorem staged_storeAll (dev : Dev D) (nodup : (keys ws).Nodup) : (dev.storeAll ws).Staged ws := by
  induction ws generalizing dev with
  | nil => intro w member; cases member
  | cons v ws ih =>
    rw [keys_cons, List.nodup_cons] at nodup
    intro w member
    rcases List.mem_cons.mp member with rfl | later
    · rw [storeAll_cons, storeAll_of_not_mem _ nodup.1, store_same]
    · exact ih (dev.store v.1 v.2) nodup.2 w later

theorem Staged.peek (staged : dev.Staged ws) {w : Nat × D}
    (member : w ∈ ws) : dev.peek w.1 = w.2 := by
  simp [Dev.peek, staged w member]

/-- The weaker state a write is in once something else may have synced it: in its
buffer, unlocked, and on disk already if it is not dirty. -/
def Ready (dev : Dev D) (ws : Writes D) : Prop :=
  ∀ w ∈ ws, ∃ dirty, dev.buf w.1 = some { data := w.2, dirty := dirty, locked := false } ∧
    (dirty = false → dev.disk w.1 = w.2)

theorem Staged.ready (staged : dev.Staged ws) : dev.Ready ws :=
  fun w member => ⟨true, staged w member, by simp⟩

theorem Ready.append (left : dev.Ready ws)
    (right : dev.Ready vs) : dev.Ready (ws ++ vs) := fun w member =>
  (List.mem_append.mp member).elim (left w) (right w)

theorem Ready.of_same {dev dev' : Dev D} (ready : dev.Ready ws)
    (same : ∀ b ∈ keys ws, dev'.buf b = dev.buf b ∧ dev'.disk b = dev.disk b) : dev'.Ready ws := by
  intro w member
  obtain ⟨sameBuf, sameDisk⟩ := same w.1 (mem_keys.mpr ⟨w.2, member⟩)
  rw [sameBuf, sameDisk]
  exact ready w member

theorem Ready.storeAll (ready : dev.Ready ws)
    (apart : ∀ b ∈ keys ws, b ∉ keys vs) : (dev.storeAll vs).Ready ws :=
  ready.of_same fun b member => ⟨storeAll_of_not_mem dev (apart b member), by rw [storeAll_disk]⟩

theorem Ready.peek (ready : dev.Ready ws) {w : Nat × D} (member : w ∈ ws) : dev.peek w.1 = w.2 := by
  obtain ⟨dirty, cached, _⟩ := ready w member
  simp [Dev.peek, cached]

/-- A selective flush over the blocks of ready writes makes some of them, and leaves
all of them on disk. -/
theorem Ready.selected (ready : dev.Ready ws) :
    (∀ w ∈ (keys ws).filterMap dev.selected, w.1 ∈ keys ws ∧ w.2 = dev.peek w.1) ∧
      ∀ w ∈ ws, putAll dev.disk ((keys ws).filterMap dev.selected) w.1 = w.2 := by
  have made : ∀ w ∈ (keys ws).filterMap dev.selected, w.1 ∈ keys ws ∧ w.2 = dev.peek w.1 := by
    intro w member
    obtain ⟨b, key, found⟩ := List.mem_filterMap.mp member
    obtain rfl := selected_eq_some found
    exact ⟨key, rfl⟩
  refine ⟨made, fun w member => ?_⟩
  rw [← ready.peek member]
  refine putAll_eq_of_forall (fun v written => (made _ written).2) fun absent => ?_
  obtain ⟨dirty, cached, onDisk⟩ := ready w member
  cases dirty with
  | false => rw [onDisk rfl, ready.peek member]
  | true =>
    refine absurd (mem_keys.mpr ⟨dev.peek w.1, List.mem_filterMap.mpr ⟨w.1, ?_, ?_⟩⟩) absent
    · exact mem_keys.mpr ⟨w.2, member⟩
    · exact selected_of_flushable (by simp [flushable, cached])

/-- A selective flush over the blocks of staged writes makes exactly those writes. -/
theorem Staged.selected (staged : dev.Staged ws) : (keys ws).filterMap dev.selected = ws := by
  induction ws with
  | nil => rfl
  | cons w ws ih =>
    have cached := staged w List.mem_cons_self
    have ready : dev.flushable w.1 = true := by simp [flushable, cached]
    rw [keys_cons, List.filterMap_cons, selected_of_flushable ready,
      staged.peek List.mem_cons_self, ih (List.forall_mem_of_forall_mem_cons staged)]

/-! ## Caches in order -/

/-- A buffer flagged dirty is on the dirty list. -/
def DirtyLinked (dev : Dev D) : Prop :=
  ∀ b bf, dev.buf b = some bf → bf.dirty = true → b ∈ dev.dirtyList

/-- Off the dirty list, cache and disk hold the same. -/
def Coherent (dev : Dev D) : Prop := ∀ b, b ∉ dev.dirtyList → dev.peek b = dev.disk b

theorem DirtyLinked.store (linked : dev.DirtyLinked) (b : Nat) (d : D) :
    (dev.store b d).DirtyLinked := by
  intro c bf cached dirty
  rw [store_dirtyList, mem_link]
  by_cases here : c = b
  · exact .inr here
  · rw [store_ne dev d here] at cached
    exact .inl (linked c bf cached dirty)

theorem DirtyLinked.storeAll (linked : dev.DirtyLinked) (ws : Writes D) :
    (dev.storeAll ws).DirtyLinked := by
  induction ws generalizing dev with
  | nil => exact linked
  | cons w ws ih => exact ih (linked.store w.1 w.2)

/-- Writing a buffer out can only clear its flag. -/
theorem syncOne_buf (dev : Dev D) (b c : Nat) : (dev.syncOne b).buf c =
      if c = b then (dev.buf c).map fun bf => { bf with dirty := false } else dev.buf c := by
  split
  · rename_i here
    subst here
    cases cached : dev.buf c <;> simp [syncOne, cached, setBuf]
  · exact syncOne_buf_ne dev ‹_›

theorem foldl_syncOne_buf (dev : Dev D) (bs : List Nat) (c : Nat) : (bs.foldl syncOne dev).buf c =
      if c ∈ bs then (dev.buf c).map fun bf => { bf with dirty := false } else dev.buf c := by
  induction bs generalizing dev with
  | nil => simp
  | cons b bs ih =>
    rw [List.foldl_cons, ih, syncOne_buf]
    by_cases later : c ∈ bs <;> by_cases here : c = b <;>
      simp [here, Function.comp_def]

theorem DirtyLinked.syncBuffers (linked : dev.DirtyLinked) : dev.syncBuffers.DirtyLinked := by
  intro c bf cached dirty
  have cleared := foldl_syncOne_buf dev dev.dirtyList c
  rw [show dev.syncBuffers.buf c = (dev.dirtyList.foldl syncOne dev).buf c from rfl, cleared]
    at cached
  split at cached
  · obtain ⟨old, _, rfl⟩ := Option.map_eq_some_iff.mp cached
    cases dirty
  · exact absurd (linked c bf cached dirty) ‹_›

/-- A full sync leaves ready writes ready: those it did not make were on disk. -/
theorem Ready.syncBuffers (ready : dev.Ready ws) : dev.syncBuffers.Ready ws := by
  intro w member
  obtain ⟨dirty, cached, onDisk⟩ := ready w member
  have buf := foldl_syncOne_buf dev dev.dirtyList w.1
  rw [show dev.syncBuffers.buf w.1 = (dev.dirtyList.foldl syncOne dev).buf w.1 from rfl, buf,
    cached]
  have disk := dev.syncBuffers_disk w.1
  by_cases reached : w.1 ∈ dev.dirtyList
  · rw [if_pos reached] at disk ⊢
    exact ⟨false, rfl, fun _ => disk.trans (ready.peek member)⟩
  · rw [if_neg reached] at disk ⊢
    refine ⟨dirty, rfl, fun clean => disk.trans (onDisk clean)⟩

theorem DirtyLinked.foldl_selectOne (linked : dev.DirtyLinked) (bs : List Nat) :
    (bs.foldl selectOne dev).DirtyLinked := by
  induction bs generalizing dev with
  | nil => exact linked
  | cons b bs ih =>
    refine ih ?_
    unfold selectOne
    split
    · intro c bf cached dirty
      rw [syncOne_buf] at cached
      rw [syncOne_dirtyList]
      split at cached
      · obtain ⟨old, _, rfl⟩ := Option.map_eq_some_iff.mp cached
        cases dirty
      · exact linked c bf cached dirty
    · exact linked

theorem DirtyLinked.syncSelect (linked : dev.DirtyLinked) (first count : Nat) :
    (dev.syncSelect first count).DirtyLinked :=
  linked.foldl_selectOne _

/-- In an ordered cache releasing a buffer links nothing new. -/
theorem DirtyLinked.brelse_dirtyList (linked : dev.DirtyLinked) (b : Nat) :
    (dev.brelse b).dirtyList = dev.dirtyList := by
  cases cached : dev.buf b with
  | none => simp [brelse, cached]
  | some bf =>
    cases dirty : bf.dirty with
    | false => simp [brelse, cached, dirty]
    | true => simp [brelse, cached, dirty, link, linked b bf cached dirty]

theorem Coherent.bread (coherent : dev.Coherent) (b : Nat) :
    (dev.bread b).Coherent := fun c unlinked => by
  rw [bread_dirtyList] at unlinked
  rw [bread_peek, bread_disk, coherent c unlinked]

theorem Coherent.brelse (coherent : dev.Coherent) (b : Nat) :
    (dev.brelse b).Coherent := fun c unlinked => by
  rw [brelse_peek, brelse_disk]
  exact coherent c fun linked => unlinked (mem_brelse_dirtyList linked)

theorem Coherent.store (coherent : dev.Coherent) (b : Nat) (d : D) :
    (dev.store b d).Coherent := fun c unlinked => by
  rw [store_dirtyList, mem_link, not_or] at unlinked
  rw [store_peek, put_of_ne _ _ unlinked.2, store_disk, coherent c unlinked.1]

/-- A full sync of a coherent cache leaves on disk what the cache holds. -/
theorem Coherent.syncBuffers_disk (coherent : dev.Coherent) : dev.syncBuffers.disk = dev.peek := by
  funext b
  rw [Dev.syncBuffers_disk]
  split
  · rfl
  · exact (coherent b ‹_›).symm

/-! ## Operations that stay within some blocks -/

/-- From `dev` to `dev'` nothing was written, and only buffers of blocks in `P` changed. -/
structure Within (P : Nat → Prop) (dev dev' : Dev D) : Prop where
  disk : dev'.disk = dev.disk
  writes : dev'.writes = dev.writes
  others : ∀ c, ¬ P c → dev'.buf c = dev.buf c
  kept : ∀ c ∈ dev.dirtyList, c ∈ dev'.dirtyList
  dirty : ∀ c ∈ dev'.dirtyList, c ∈ dev.dirtyList ∨ P c
  linked : dev.DirtyLinked → dev'.DirtyLinked

section Within

variable {P : Nat → Prop} {b : Nat}

theorem Within.refl (dev : Dev D) : Within P dev dev :=
  ⟨rfl, rfl, fun _ _ => rfl, fun _ member => member, fun _ member => .inl member, id⟩

theorem Within.trans {dev₁ dev₂ : Dev D} (first : Within P dev dev₁) (next : Within P dev₁ dev₂) :
    Within P dev dev₂ where
  disk := next.disk.trans first.disk
  writes := next.writes.trans first.writes
  others c outside := (next.others c outside).trans (first.others c outside)
  kept c member := next.kept c (first.kept c member)
  dirty c member := (next.dirty c member).elim (first.dirty c) .inr
  linked before := next.linked (first.linked before)

section

variable (inside : P b)

include inside

/-- Replacing one buffer, with its flag as it was. -/
theorem within_setBuf {bf : Buffer D}
    (marked : bf.dirty = true → ∃ old, dev.buf b = some old ∧ old.dirty = true) :
    Within P dev (dev.setBuf b bf) where
  disk := rfl
  writes := rfl
  others c outside := setBuf_ne dev bf fun here => outside (here ▸ inside)
  kept _ member := member
  dirty _ member := .inl member
  linked before c bf' cached dirty := by
    by_cases here : c = b
    · subst here
      rw [setBuf_same, Option.some.injEq] at cached
      subst cached
      obtain ⟨old, was, wasDirty⟩ := marked dirty
      exact before c old was wasDirty
    · rw [setBuf_ne dev bf here] at cached
      exact before c bf' cached dirty

theorem within_bread : Within P dev (dev.bread b) := by
  cases cached : dev.buf b with
  | none =>
    simp only [bread, cached]
    exact within_setBuf inside (by simp)
  | some bf =>
    simp only [bread, cached]
    exact within_setBuf inside fun marked => ⟨bf, cached, marked⟩

theorem within_modify (d : D) : Within P dev (dev.modify b d) := by
  cases cached : dev.buf b with
  | none =>
    simp only [modify, cached]
    exact Within.refl dev
  | some bf =>
    simp only [modify, cached]
    exact within_setBuf inside fun marked => ⟨bf, cached, marked⟩

/-- Marking and releasing a buffer links it. -/
theorem within_release (bf : Buffer D) :
    Within P dev { dev.setBuf b bf with dirtyList := link dev.dirtyList b } where
  disk := rfl
  writes := rfl
  others c outside := setBuf_ne dev bf fun here => outside (here ▸ inside)
  kept c member := mem_link.mpr (.inl member)
  dirty c member := by
    rcases mem_link.mp member with old | rfl
    · exact .inl old
    · exact .inr inside
  linked before c bf' cached dirty := by
    by_cases here : c = b
    · exact mem_link.mpr (.inr here)
    · exact mem_link.mpr (.inl (before c bf' ((setBuf_ne dev bf here).symm.trans cached) dirty))

theorem within_brelse : Within P dev (dev.brelse b) := by
  cases cached : dev.buf b with
  | none =>
    simp only [brelse, cached]
    exact Within.refl dev
  | some bf =>
    cases dirty : bf.dirty with
    | true =>
      simp only [brelse, cached, dirty]
      exact within_release inside _
    | false =>
      simp only [brelse, cached, dirty]
      exact within_setBuf inside (by simp)

theorem within_bwrite : Within P dev (dev.bwrite b) := by
  cases cached : dev.buf b with
  | none =>
    simp only [bwrite, cached]
    exact Within.refl dev
  | some bf =>
    simp only [bwrite, cached, brelse, setBuf_same, setBuf_setBuf]
    exact within_release inside _

theorem within_store (d : D) : Within P dev (dev.store b d) :=
  (within_bread inside).trans ((within_modify inside d).trans (within_bwrite inside))

end

theorem within_storeAll (inside : ∀ w ∈ ws, P w.1) : Within P dev (dev.storeAll ws) := by
  induction ws generalizing dev with
  | nil => exact Within.refl dev
  | cons w ws ih =>
    exact (within_store (inside w List.mem_cons_self) w.2).trans
      (ih (List.forall_mem_of_forall_mem_cons inside))

end Within

/-- A full sync after storing blocks that were not on the dirty list: the old list
first, then the new blocks in the order they were stored. -/
theorem syncBuffers_storeAll_wrote (dev : Dev D) (vs : Writes D) (nodup : (keys vs).Nodup)
    (fresh : ∀ b ∈ keys vs, b ∉ dev.dirtyList) :
    Wrote dev (dev.storeAll vs).syncBuffers (dev.dirtyWrites ++ vs) := by
  have linked : ∀ (vs : Writes D) (dev : Dev D), (keys vs).Nodup →
      (∀ b ∈ keys vs, b ∉ dev.dirtyList) →
      (dev.storeAll vs).dirtyList = dev.dirtyList ++ keys vs := by
    intro vs
    induction vs with
    | nil => simp
    | cons v vs ih =>
      intro dev nodup fresh
      rw [keys_cons, List.nodup_cons] at nodup
      have absent := fresh v.1 List.mem_cons_self
      rw [storeAll_cons, ih _ nodup.2, store_dirtyList, link, if_neg absent]
      · simp
      · intro b member
        rw [store_dirtyList, mem_link, not_or]
        exact ⟨fresh b (List.mem_cons_of_mem _ member), fun here => nodup.1 (here ▸ member)⟩
  have old : dev.dirtyList.filterMap (dev.storeAll vs).image = dev.dirtyWrites := by
    refine List.filterMap_congr fun b member => ?_
    have absent : b ∉ keys vs := fun key => fresh b key member
    simp [image, storeAll_of_not_mem dev absent]
  have new : (keys vs).filterMap (dev.storeAll vs).image = vs := by
    have staged := staged_storeAll dev nodup
    have images : ∀ ws : Writes D, (dev.storeAll vs).Staged ws →
        (keys ws).filterMap (dev.storeAll vs).image = ws := by
      intro ws staged
      induction ws with
      | nil => rfl
      | cons w ws ih =>
        have here := staged w List.mem_cons_self
        rw [keys_cons, List.filterMap_cons, image, here,
          ih (List.forall_mem_of_forall_mem_cons staged)]
        rfl
    exact images vs staged
  have synced := syncBuffers_wrote (dev.storeAll vs)
  rw [dirtyWrites, linked vs dev nodup fresh, List.filterMap_append, old, new] at synced
  exact (Wrote.none (storeAll_writes dev vs) (storeAll_disk dev vs)).trans synced

theorem mem_dirtyWrites {w : Nat × D} (member : w ∈ dev.dirtyWrites) :
    w.1 ∈ dev.dirtyList ∧ w.2 = dev.peek w.1 := by
  obtain ⟨b, linked, found⟩ := List.mem_filterMap.mp member
  obtain rfl := image_eq_some found
  exact ⟨linked, rfl⟩

/-! ## Runs of cache operations -/

/-- `dev'` comes from `dev` by device writes, changes of the dirty list and overwrites
of whole blocks, those that `P` allows. -/
inductive Flow (P : Nat × D → Prop) (dev : Dev D) : Dev D → Prop where
  | refl : Flow P dev dev
  | sync {dev' : Dev D} (flow : Flow P dev dev') (b : Nat) : Flow P dev (dev'.syncOne b)
  | relink {dev' : Dev D} (flow : Flow P dev dev') (l : List Nat) :
      Flow P dev { dev' with dirtyList := l }
  | store {dev' : Dev D} (flow : Flow P dev dev') {w : Nat × D} (allowed : P w) :
      Flow P dev (dev'.store w.1 w.2)

section Flow

variable {P Q : Nat × D → Prop} {dev' dev₂ : Dev D}

theorem Flow.trans (first : Flow P dev dev') (next : Flow P dev' dev₂) : Flow P dev dev₂ := by
  induction next with
  | refl => exact first
  | sync _ b ih => exact ih.sync b
  | relink _ l ih => exact ih.relink l
  | store _ allowed ih => exact ih.store allowed

variable (flow : Flow P dev dev') {b : Nat}

include flow

theorem Flow.mono (weaker : ∀ w, P w → Q w) : Flow Q dev dev' := by
  induction flow with
  | refl => exact .refl
  | sync _ b ih => exact ih.sync b
  | relink _ l ih => exact ih.relink l
  | store _ allowed ih => exact ih.store (weaker _ allowed)

theorem Flow.storeAll (allowed : ∀ w ∈ ws, P w) : Flow P dev (dev'.storeAll ws) := by
  induction ws generalizing dev' with
  | nil => exact flow
  | cons w ws ih =>
    exact ih (flow.store (allowed w List.mem_cons_self)) fun v member =>
      allowed v (List.mem_cons_of_mem _ member)

theorem Flow.syncBuffers : Flow P dev dev'.syncBuffers := by
  suffices all : ∀ (bs : List Nat) (dev₁ : Dev D), Flow P dev dev₁ →
      Flow P dev (bs.foldl syncOne dev₁) from (all _ _ flow).relink []
  intro bs
  induction bs with
  | nil => exact fun _ flow => flow
  | cons b bs ih => exact fun dev₁ flow => ih _ (flow.sync b)

theorem Flow.syncSelect (first count : Nat) : Flow P dev (dev'.syncSelect first count) := by
  suffices all : ∀ (bs : List Nat) (dev₁ : Dev D), Flow P dev dev₁ →
      Flow P dev (bs.foldl selectOne dev₁) from all _ _ flow
  intro bs
  induction bs with
  | nil => exact fun _ flow => flow
  | cons b bs ih =>
    intro dev₁ flow
    refine ih _ ?_
    unfold selectOne
    split
    · exact flow.sync b
    · exact flow

/-- A block that is only overwritten with the content it shows goes on showing it. -/
theorem Flow.peek (same : ∀ w, P w → w.1 = b → w.2 = dev.peek b) : dev'.peek b = dev.peek b := by
  induction flow with
  | refl => rfl
  | sync _ c ih => rw [syncOne_peek, ih]
  | relink _ l ih => exact ih
  | store _ allowed ih =>
    rename_i w
    rw [store_peek]
    by_cases here : b = w.1
    · rw [here, put_same, ← here]
      exact same w allowed here.symm
    · rw [put_of_ne _ _ here, ih]

/-- A block that is not overwritten stays locked or unlocked. -/
theorem Flow.bufferLocked (apart : ∀ w, P w → w.1 ≠ b) :
    dev'.bufferLocked b = dev.bufferLocked b := by
  induction flow with
  | refl => rfl
  | sync _ c ih => rw [syncOne_bufferLocked, ih]
  | relink _ l ih => exact ih
  | store _ allowed ih => rw [store_bufferLocked, if_neg (apart _ allowed).symm, ih]

end Flow

/-! ## Changing a buffer without marking it -/

/-- Read a block, change it, release it as it was marked before. -/
def touch (dev : Dev D) (w : Nat × D) : Dev D := ((dev.bread w.1).modify w.1 w.2).brelse w.1

section Touch

variable (w : Nat × D)

section

variable (linked : dev.DirtyLinked)

include linked

theorem touch_eq :
    ∃ dirty, dev.touch w = dev.setBuf w.1 { data := w.2, dirty := dirty, locked := false } ∧
      (dirty = true → w.1 ∈ dev.dirtyList) := by
  cases cached : dev.buf w.1 with
  | none => exact ⟨false, by simp [touch, bread, modify, brelse, cached, setBuf], by simp⟩
  | some bf =>
    cases dirty : bf.dirty with
    | false => simp [touch, bread, modify, brelse, cached, setBuf, dirty]
    | true =>
      have present := linked w.1 bf cached dirty
      simp [touch, bread, modify, brelse, cached, setBuf, dirty, link, present]

theorem DirtyLinked.touch : (dev.touch w).DirtyLinked := by
  obtain ⟨dirty, shape, marked⟩ := touch_eq w linked
  rw [shape]
  intro c bf cached flagged
  by_cases here : c = w.1
  · subst here
    rw [setBuf_same, Option.some.injEq] at cached
    subst cached
    exact marked flagged
  · rw [setBuf_ne dev _ here] at cached
    exact linked c bf cached flagged

theorem touch_dirtyList : (dev.touch w).dirtyList = dev.dirtyList := by
  obtain ⟨_, shape, _⟩ := touch_eq w linked
  rw [shape, setBuf_dirtyList]

theorem touch_disk : (dev.touch w).disk = dev.disk := by
  obtain ⟨_, shape, _⟩ := touch_eq w linked
  rw [shape, setBuf_disk]

theorem touch_writes : (dev.touch w).writes = dev.writes := by
  obtain ⟨_, shape, _⟩ := touch_eq w linked
  rw [shape, setBuf_writes]

theorem touch_buf_ne {c : Nat} (ne : c ≠ w.1) : (dev.touch w).buf c = dev.buf c := by
  obtain ⟨_, shape, _⟩ := touch_eq w linked
  rw [shape, setBuf_ne dev _ ne]

end

theorem touch_peek : (dev.touch w).peek = put dev.peek w := by
  rw [touch, brelse_peek, bread_modify_peek]

end Touch

structure Touched (dev dev' : Dev D) (ws : Writes D) : Prop where
  linked : dev'.DirtyLinked
  dirtyList : dev'.dirtyList = dev.dirtyList
  disk : dev'.disk = dev.disk
  writes : dev'.writes = dev.writes
  peek : dev'.peek = putAll dev.peek ws
  others : ∀ c, c ∉ keys ws → dev'.buf c = dev.buf c

theorem touched_foldl (linked : dev.DirtyLinked) (ws : Writes D) :
    Touched dev (ws.foldl touch dev) ws := by
  induction ws generalizing dev with
  | nil => exact ⟨linked, rfl, rfl, rfl, rfl, fun _ _ => rfl⟩
  | cons w ws ih =>
    have rest := ih (linked.touch w)
    refine ⟨rest.linked, ?_, ?_, ?_, ?_, fun c absent => ?_⟩
    · rw [List.foldl_cons, rest.dirtyList, touch_dirtyList w linked]
    · rw [List.foldl_cons, rest.disk, touch_disk w linked]
    · rw [List.foldl_cons, rest.writes, touch_writes w linked]
    · rw [List.foldl_cons, rest.peek, touch_peek w, putAll_cons]
    · rw [keys_cons, List.mem_cons, not_or] at absent
      rw [List.foldl_cons, rest.others c absent.2, touch_buf_ne w linked absent.1]

end Dev

end Argentum.Fs
