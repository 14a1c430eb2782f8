/-
# Fs.DirtyList — the dirty lists of the buffer cache

`fs/buffer.c` threads its dirty buffers on one list per size (`Lib.TailList`). The steps are the
stretches of code between two sleeps; every device write may fail.

`dirty_list_invariant`: a buffer is linked exactly when it is dirty (unless a pass holds it), no
buffer twice, and a pass that has ended holds none. Two paths break it and are left out by
`SafeLabel`: `sync_buffers_select` clears the flag of a buffer that it leaves linked, and
`reclaim_buffers` frees a buffer that is still dirty when its write fails. After the first,
`kbdflushd` keeps a linked buffer that is not dirty locked for ever (`select_leaves_linked`).
-/
import Argentum.Lib.Machine
import Argentum.Lib.TailList

namespace Argentum.Fs.DirtyList

open Lib Lib.Machine List
open Function (update update_eq_self_iff update_of_ne update_self)

/-! ## Buffers and passes -/

/-- Who has locked a buffer. `recycler` and `reclaimer` are writing it; `sibling` and `orig` are
about to be freed by `reclaim_buffers`. -/
inductive Holder
  | user
  | recycler
  | pass
  | reclaimer
  | sibling
  | orig
  deriving DecidableEq

/-- `siblings` is the chain of the buffers made from one page, from `first_sibling` on. -/
structure Buf where
  size : Nat
  dev : Nat
  dirty : Bool
  holder : Option Holder
  siblings : List Nat
  deriving DecidableEq

inductive Flusher
  | sync (dev : Nat)
  | kbdflushd
  deriving DecidableEq

/-- A pass over the dirty lists, under `sync_resource`. -/
structure Pass where
  flusher : Flusher
  size : Nat
  first : Option Nat
  holding : Option Nat
  flushed : Nat
  deriving DecidableEq

/-- The cache. The dirty pointers of a buffer live in the list of its size, which it never leaves;
`selecting` are the writes of `sync_buffers_select` under way. -/
structure Cache where
  bufs : Nat → Option Buf
  links : Nat → Links Nat
  nrDirty : Int
  maxDirty : Int
  pass : Option Pass
  selecting : List Nat

/-- `BUFHEAD_INDEX`. -/
def bufheadIndex (size : Nat) : Nat := size / 512 - 1

def pageSize : Nat := 4096

def nrBufReclaim : Nat := 250

/-- `buffer_init`. -/
def bufferInit (maxDirty : Int) : Cache :=
  { bufs := fun _ => none, links := fun _ => Links.empty, nrDirty := 0, maxDirty := maxDirty
    pass := none, selecting := [] }

/-- What `sync_one_buffer` leaves of the flag. -/
def Buf.written (b : Buf) (ok : Bool) : Buf := { b with dirty := b.dirty && !ok }

/-- To the next size; `none` when the pass is over. -/
def Pass.advance (p : Pass) : Option Pass :=
  if p.size * 2 ≤ pageSize then some { p with size := p.size * 2, first := none, holding := none }
  else none

namespace Cache

variable (c : Cache) (p : Pass) (id : Nat) (b : Buf) (ok : Bool)

def setBuf : Cache :=
  { c with bufs := update c.bufs id (some b) }

def setPass (p : Option Pass) : Cache := { c with pass := p }

def lock (holder : Holder) : Cache :=
  c.setBuf id { b with holder := some holder }

def unlock : Cache := c.setBuf id { b with holder := none }

/-- `del_buffer_from_pool`. -/
def delBuffer : Cache :=
  { c with bufs := update c.bufs id none }

def insertOnDirtyList : Cache :=
  let i := bufheadIndex b.size
  if (c.links i).linked id then c
  else
    { c with
      links := update c.links i ((c.links i).insert id)
      nrDirty := c.nrDirty + 1 }

def removeFromDirtyList : Cache :=
  let i := bufheadIndex b.size
  match (c.links i).head with
  | none => c
  | some _ =>
    { c with
      links := update c.links i ((c.links i).remove id)
      nrDirty := c.nrDirty - 1 }

def brelse : Cache :=
  (if b.dirty then c.insertOnDirtyList id b else c).unlock id b

def bwrite : Cache := c.brelse id { b with dirty := true }

/-! ## Making, recycling and freeing -/

/-- `add_buffer_to_pool`: the memory of the buffer is cleared. -/
def addBufferToPool (size : Nat) (siblings : List Nat) (c : Cache) (id : Nat) : Cache :=
  { c with
    bufs := update c.bufs id (some ⟨size, 0, false, none, siblings⟩)
    links := fun i => (c.links i).clear id }

/-- `create_buffers`, for a `getblk`: the buffers of one page; the caller gets the last. -/
def createBuffers (dev size : Nat) (ids : List Nat) : Option Cache :=
  match ids.getLast? with
  | none => none
  | some last =>
    if ids.Nodup ∧ ∀ id ∈ ids, c.bufs id = none then
      let c := ids.foldl (addBufferToPool size ids) c
      some (c.lock last ⟨size, dev, false, none, ids⟩ .user)
    else none

/-- `getblk` with the buffer of `get_free_buffer`: a dirty one is written first. -/
def recycle (dev : Nat) : Cache :=
  if b.dirty then c.lock id b .recycler else c.lock id { b with dev := dev } .user

/-- `if(!sync_one_buffer(buf)) remove_from_dirty_list(buf)`, but for the flag (`Buf.written`). -/
def syncAndRemove : Cache :=
  if ok then c.removeFromDirtyList id b else c

def recycled : Cache :=
  (c.syncAndRemove id b ok).brelse id (b.written ok)

def lockSibling : Cache :=
  match c.bufs id with
  | some b => c.lock id b .sibling
  | none => c

/-- `reclaim_siblings` up to the first write: give up if a sibling is locked, else lock them. -/
def reclaimSiblings : Cache :=
  let others := b.siblings.filter (· ≠ id)
  if others.any fun j => (c.bufs j).any (·.holder.isSome) then c.unlock id b
  else others.foldl lockSibling (c.lock id b .orig)

/-- `reclaim_buffers` with the buffer of `get_free_buffer`. -/
def reclaim : Cache :=
  if b.dirty then c.lock id b .reclaimer else c.reclaimSiblings id b

def reclaimed : Cache :=
  (c.syncAndRemove id b ok).reclaimSiblings id (b.written ok)

/-- A sibling is written if it is dirty, and freed however the write went. -/
def freeSibling : Cache :=
  (if b.dirty then c.syncAndRemove id b ok else c).delBuffer id

/-! ## Passes -/

/-- `insert_on_dirty_list`, unlock. -/
def putBack : Cache := (c.insertOnDirtyList id b).unlock id b

/-- What a pass does with a buffer that it just took off the list and locked, up to the write. -/
def inspect : Cache :=
  match p.flusher with
  | .sync dev =>
    if p.first = some id then (c.putBack id b).setPass { p with flushed := 1 }.advance
    else if dev = 0 ∨ b.dev = dev then c.setPass (some { p with holding := some id })
    else (c.putBack id b).setPass (some { p with first := p.first.or (some id) })
  | .kbdflushd =>
    -- the buffer stays locked
    if b.dirty = false then c
    else if p.first = some id then (c.putBack id b).setPass p.advance
    else c.setPass (some { p with first := p.first.or (some id), holding := some id })

/-- `get_dirty_buffer` and what follows; it sleeps while the head is locked. -/
def getDirtyBuffer : Option Cache :=
  match (c.links (bufheadIndex p.size)).head with
  | none => some (c.setPass p.advance)
  | some id =>
    match c.bufs id with
    | none => none
    | some b =>
      if b.holder.isSome then none
      else
        let c := (c.removeFromDirtyList id b).lock id b .pass
        some (c.inspect p id { b with holder := some .pass })

/-- The write of the pass has ended. -/
def passWrote : Cache :=
  let p := { p with holding := none }
  if ok then
    let c := c.unlock id (b.written ok)
    match p.flusher with
    | .sync _ => c.setPass (some { p with flushed := 1 })
    | .kbdflushd =>
      let p := { p with flushed := p.flushed + 1 }
      if nrBufReclaim ≤ p.flushed ∧ c.nrDirty < c.maxDirty then c.setPass p.advance
      else c.setPass (some p)
  else (c.putBack id b).setPass (some p)

/-- The buffer `id`, if it is locked by `holder` (or by nobody). -/
def whose (holder : Option Holder) : Option Buf :=
  (c.bufs id).filter fun b => b.holder = holder

end Cache

/-! ## The machine -/

inductive Label
  | create (dev size : Nat) (ids : List Nat)
  | getblk (id : Nat)
  | recycle (id dev : Nat)
  | recycled (id : Nat) (ok : Bool)
  | bwrite (id : Nat)
  | brelse (id : Nat)
  | flush (flusher : Flusher)
  | getDirty
  | wrote (ok : Bool)
  | select (id : Nat)
  | selected (id : Nat) (ok : Bool)
  | reclaim (id : Nat)
  | reclaimed (id : Nat) (ok : Bool)
  | freeSibling (id : Nat) (ok : Bool)
  | freeOrig (id : Nat)
  deriving DecidableEq

def step (c : Cache) : Label → Option Cache
  | .create dev size ids => c.createBuffers dev size ids
  | .getblk id => (c.whose id none).map fun b => c.lock id b .user
  | .recycle id dev => (c.whose id none).map fun b => c.recycle id b dev
  | .recycled id ok => (c.whose id (some .recycler)).map fun b => c.recycled id b ok
  | .bwrite id => (c.whose id (some .user)).map fun b => c.bwrite id b
  | .brelse id => (c.whose id (some .user)).map fun b => c.brelse id b
  | .flush flusher =>
    if c.pass.isSome then none else some (c.setPass (some ⟨flusher, 512, none, none, 0⟩))
  | .getDirty =>
    c.pass.bind fun p => if p.holding.isSome then none else c.getDirtyBuffer p
  | .wrote ok =>
    c.pass.bind fun p => p.holding.bind fun id =>
      (c.bufs id).map fun b => c.passWrote p id b ok
  | .select id =>
    ((c.whose id none).filter (·.dirty)).map fun _ => { c with selecting := id :: c.selecting }
  | .selected id ok =>
    if id ∈ c.selecting then
      let c := { c with selecting := c.selecting.erase id }
      some (match c.bufs id with
        | some b => c.setBuf id (b.written ok)
        | none => c)
    else none
  | .reclaim id => (c.whose id none).map fun b => c.reclaim id b
  | .reclaimed id ok => (c.whose id (some .reclaimer)).map fun b => c.reclaimed id b ok
  | .freeSibling id ok => (c.whose id (some .sibling)).map fun b => c.freeSibling id b ok
  | .freeOrig id =>
    ((c.whose id (some .orig)).filter fun b =>
      b.siblings.all fun j => j = id || (c.whose j (some .sibling)).isNone).map
        fun _ => c.delBuffer id

structure InOrder (c : Cache) : Prop where
  lists : ∀ i, ∃ l, (c.links i).Represents l ∧
    ∀ id ∈ l, ∃ b, c.bufs id = some b ∧ bufheadIndex b.size = i
  linked : ∀ id b, c.bufs id = some b → b.holder ≠ some .pass →
    ((c.links (bufheadIndex b.size)).linked id = true ↔ b.dirty = true)
  released : ∀ id b, c.bufs id = some b → b.holder = some .pass →
    ∃ p, c.pass = some p ∧ p.holding = some id

/-- No write of `sync_buffers_select` ends well while its buffer is dirty, and no buffer is freed
while it is dirty and not written. -/
def SafeLabel (c : Cache) : Label → Prop
  | .selected id ok => ok = true → ∀ b ∈ c.bufs id, b.dirty = false
  | .freeSibling id ok => ∀ b ∈ c.bufs id, b.dirty = true → ok = true
  | .freeOrig id => ∀ b ∈ c.bufs id, b.dirty = false
  | _ => True

/-! ## What the steps keep -/

/-- A buffer that belongs on the list `i`. -/
def On (b : Buf) (i : Nat) : Prop :=
  bufheadIndex b.size = i ∧ b.dirty = true ∧ b.holder ≠ some .pass

/-- Every list holds the buffers that belong on it. -/
def Listed (c : Cache) : Prop :=
  ∀ i, ∃ l, (c.links i).Represents l ∧ ∀ id, id ∈ l ↔ ∃ b, c.bufs id = some b ∧ On b i

/-- A buffer that is being written after it was found dirty is still dirty. -/
def Sound (b : Buf) : Prop :=
  b.holder = some .recycler ∨ b.holder = some .reclaimer ∨ b.holder = some .pass → b.dirty = true

structure Inv (c : Cache) : Prop where
  listed : Listed c
  sound : ∀ id b, c.bufs id = some b → Sound b
  held : ∀ id b, c.bufs id = some b → b.holder = some .pass →
    ∃ p, c.pass = some p ∧ p.holding = some id
  holding : ∀ p id, c.pass = some p → p.holding = some id →
    ∃ b, c.bufs id = some b ∧ b.holder = some .pass

open Cache

section Fields

variable (c : Cache) (id : Nat) (b : Buf) (p : Option Pass)

@[simp] theorem insertOnDirtyList_bufs : (c.insertOnDirtyList id b).bufs = c.bufs := by
  simp only [insertOnDirtyList]
  split <;> rfl

@[simp] theorem insertOnDirtyList_pass : (c.insertOnDirtyList id b).pass = c.pass := by
  simp only [insertOnDirtyList]
  split <;> rfl

@[simp] theorem removeFromDirtyList_bufs : (c.removeFromDirtyList id b).bufs = c.bufs := by
  simp only [removeFromDirtyList]
  split <;> rfl

@[simp] theorem removeFromDirtyList_pass : (c.removeFromDirtyList id b).pass = c.pass := by
  simp only [removeFromDirtyList]
  split <;> rfl

@[simp] theorem setBuf_bufs : (c.setBuf id b).bufs = update c.bufs id (some b) := rfl

end Fields

section Lists

variable {c c' : Cache} {id : Nat} {b b' : Buf}

variable (listed : Listed c)

include listed

/-- Buffers that stay on their list or off it. -/
theorem Listed.same (links : c'.links = c.links)
    (on : ∀ j i, (∃ b, c'.bufs j = some b ∧ On b i) ↔ ∃ b, c.bufs j = some b ∧ On b i) :
    Listed c' := by
  intro i
  obtain ⟨l, rep, member⟩ := listed i
  exact ⟨l, links ▸ rep, fun j => (member j).trans (on j i).symm⟩

variable (here : c.bufs id = some b)

include here

theorem Listed.relabel (on : ∀ i, On b' i ↔ On b i) : Listed (c.setBuf id b') := by
  refine listed.same rfl fun j i => ?_
  by_cases same : j = id
  · simp [same, here, on]
  · simp [same]

/-- One buffer changes, and with it the list of its size. -/
theorem Listed.change (size : b'.size = b.size)
    (links : ∀ i, i ≠ bufheadIndex b.size → c'.links i = c.links i)
    (bufs : c'.bufs = update c.bufs id (some b'))
    (own : ∀ l, (c.links (bufheadIndex b.size)).Represents l →
      (id ∈ l ↔ On b (bufheadIndex b.size)) →
      ∃ l', (c'.links (bufheadIndex b.size)).Represents l' ∧
        (id ∈ l' ↔ On b' (bufheadIndex b.size)) ∧ ∀ j, j ≠ id → (j ∈ l' ↔ j ∈ l)) :
    Listed c' := by
  intro i
  obtain ⟨l, rep, member⟩ := listed i
  by_cases this : i = bufheadIndex b.size
  · subst this
    obtain ⟨l', rep', self, others⟩ := own l rep (by simp [member, here])
    refine ⟨l', rep', fun j => ?_⟩
    by_cases same : j = id
    · simp [same, self, bufs]
    · simp [same, others, member, bufs]
  · refine ⟨l, links i this ▸ rep, fun j => ?_⟩
    by_cases same : j = id
    · subst same
      have off : ¬On b i := fun on => this on.1.symm
      have off' : ¬On b' i := fun on => this (size ▸ on.1).symm
      simp [member, here, bufs, off, off']
    · simp [member, bufs, same]

theorem Listed.link {b₁ : Buf}
    (size₁ : b₁.size = b.size) (size : b'.size = b.size) (dirty : b'.dirty = true)
    (free : b'.holder ≠ some .pass) : Listed ((c.insertOnDirtyList id b₁).setBuf id b') := by
  have on : On b' (bufheadIndex b.size) := ⟨size ▸ rfl, dirty, free⟩
  refine listed.change here size ?_ (by simp) ?_
  · intro i other
    simp only [insertOnDirtyList, size₁]
    split
    · rfl
    · exact update_of_ne other _ _
  · intro l rep self
    simp only [insertOnDirtyList, size₁, rep.linked_iff]
    split
    case isTrue linked => exact ⟨l, rep, iff_of_true linked on, fun j _ => Iff.rfl⟩
    case isFalse off =>
      refine ⟨l ++ [id], by simpa [setBuf] using rep.insert off, iff_of_true (by simp) on, ?_⟩
      intro j other
      simp [other]

theorem Listed.unlink (on : On b (bufheadIndex b.size)) (size : b'.size = b.size)
    (off : ∀ i, ¬On b' i) : Listed ((c.removeFromDirtyList id b).setBuf id b') := by
  refine listed.change here size ?_ (by simp) ?_
  · intro i other
    simp only [removeFromDirtyList]
    split
    · rfl
    · exact update_of_ne other _ _
  · intro l rep self
    obtain ⟨pre, post, rfl⟩ := append_of_mem (self.mpr on)
    have removed := rep.remove
    have notTwice := rep.nodup
    rw [nodup_middle, nodup_cons] at notTwice
    obtain ⟨h, head⟩ : ∃ h, (c.links (bufheadIndex b.size)).head = some h :=
      ⟨_, rep.head.trans (List.head?_eq_some_head (by simp))⟩
    refine ⟨pre ++ post, ?_, iff_of_false notTwice.1 (off _), ?_⟩
    · simpa [removeFromDirtyList, head, setBuf] using removed
    · intro j other
      simp [other]

end Lists

open Buf

section Locks

variable {c c' : Cache} {id : Nat} {b b' : Buf}

/-- No pass holds a buffer. -/
def Unheld (c : Cache) : Prop := ∀ id b, c.bufs id = some b → b.holder ≠ some .pass

theorem Inv.of_unheld (listed : Listed c) (sound : ∀ id b, c.bufs id = some b → Sound b)
    (unheld : Unheld c) (idle : ∀ p, c.pass = some p → p.holding = none) : Inv c := by
  refine ⟨listed, sound, fun id b here held => absurd held (unheld id b here), ?_⟩
  intro p id running holding
  rw [idle p running] at holding
  cases holding

theorem Inv.unheld (inv : Inv c) (idle : ∀ p, c.pass = some p → p.holding = none) : Unheld c := by
  intro id b here held
  obtain ⟨p, running, holding⟩ := inv.held id b here held
  rw [idle p running] at holding
  cases holding

theorem sound_update (sound : ∀ id b, c.bufs id = some b → Sound b)
    (bufs : c'.bufs = update c.bufs id (some b')) (new : Sound b') :
    ∀ id b, c'.bufs id = some b → Sound b := by
  intro j b₁ here
  rw [bufs] at here
  by_cases same : j = id
  · subst same
    rw [update_self, Option.some.injEq] at here
    exact here ▸ new
  · exact sound j b₁ (by rwa [update_of_ne same] at here)

section

variable (inv : Inv c) (here : c.bufs id = some b) (free : b.holder ≠ some .pass)

include inv here free

/-- A step on one buffer that no pass holds, before and after. -/
theorem Inv.change (free' : b'.holder ≠ some .pass) (sound : Sound b') (listed : Listed c')
    (bufs : c'.bufs = update c.bufs id (some b')) (pass : c'.pass = c.pass) : Inv c' := by
  refine ⟨listed, sound_update inv.sound bufs sound, ?_, ?_⟩
  · intro j b₁ here₁ held
    rw [bufs] at here₁
    by_cases same : j = id
    · subst same
      rw [update_self, Option.some.injEq] at here₁
      exact absurd (here₁ ▸ held) free'
    · rw [update_of_ne same] at here₁
      exact pass ▸ inv.held j b₁ here₁ held
  · intro p j running holding
    obtain ⟨b₁, here₁, held⟩ := inv.holding p j (pass ▸ running) holding
    have other : j ≠ id := by
      rintro rfl
      rw [here, Option.some.injEq] at here₁
      exact free (here₁ ▸ held)
    exact ⟨b₁, by rw [bufs, update_of_ne other, here₁], held⟩

/-- A buffer changes hands. -/
theorem Inv.relabel
    (size : b'.size = b.size) (dirty : b'.dirty = b.dirty) (free' : b'.holder ≠ some .pass)
    (sound : Sound b') : Inv (c.setBuf id b') := by
  refine inv.change here free free' sound (inv.listed.relabel here ?_) rfl rfl
  simp [On, size, dirty, free, free']

theorem Inv.brelse (size : b'.size = b.size) (dirty : b'.dirty = b.dirty ∨ b'.dirty = true) :
    Inv (c.brelse id b') := by
  have sound : Sound { b' with holder := none } := by simp [Sound]
  unfold Cache.brelse
  by_cases isDirty : b'.dirty = true
  · rw [if_pos isDirty]
    exact inv.change here free (by simp) sound
      (inv.listed.link here size size isDirty (by simp)) (by simp [unlock])
      (by simp [unlock, setBuf])
  · rw [if_neg isDirty]
    exact inv.relabel here free size (dirty.resolve_right isDirty) (by simp) sound

end

theorem written_true_dirty : (b.written true).dirty = false := by simp [written]

@[simp] theorem written_false : b.written false = b := by simp [written]

theorem written_of_clean (clean : b.dirty = false) (ok : Bool) : b.written ok = b := by
  cases b
  simp_all [written]

/-- A dirty buffer is written, and on success taken off its list. -/
theorem Inv.synced (inv : Inv c) (here : c.bufs id = some b) (free : b.holder ≠ some .pass)
    (dirty : b.dirty = true) {ok : Bool} (size : b'.size = b.size)
    (flag : b'.dirty = (b.written ok).dirty) (free' : b'.holder ≠ some .pass) (sound : Sound b') :
    Inv ((c.syncAndRemove id b ok).setBuf id b') := by
  cases ok with
  | false => exact inv.relabel here free size (by simpa using flag) free' sound
  | true =>
    rw [written_true_dirty] at flag
    refine inv.change here free free' sound
      (inv.listed.unlink here ⟨rfl, dirty, free⟩ size fun i on => ?_)
      (by simp [syncAndRemove]) (by simp [syncAndRemove, setBuf])
    simpa [flag] using on.2.1

end Locks

section Pool

variable {c c' : Cache} {id : Nat} {b : Buf} {ids : List Nat}

/-- A buffer that is clean and not in a pass appears or goes. -/
theorem Inv.swap (inv : Inv c) (id : Nat) {new : Option Buf}
    (before : ∀ b, c.bufs id = some b → b.dirty = false ∧ b.holder ≠ some .pass)
    (after : ∀ b, new = some b → b.dirty = false ∧ b.holder = none)
    (bufs : c'.bufs = update c.bufs id new) (links : c'.links = c.links)
    (pass : c'.pass = c.pass) : Inv c' := by
  have others : ∀ j, j ≠ id → c'.bufs j = c.bufs j := fun j other => by
    rw [bufs, update_of_ne other]
  have self : c'.bufs id = new := by rw [bufs, update_self]
  refine ⟨inv.listed.same links fun j i => ?_, ?_, ?_, ?_⟩
  · by_cases same : j = id
    · subst same
      rw [self]
      refine iff_of_false ?_ ?_
      · rintro ⟨b₁, rfl, on⟩
        simpa [(after b₁ rfl).1] using on.2.1
      · rintro ⟨b₁, here, on⟩
        simpa [(before b₁ here).1] using on.2.1
    · rw [others j same]
  · intro j b₁ here
    by_cases same : j = id
    · subst same
      simp [Sound, (after b₁ (self ▸ here)).2]
    · exact inv.sound j b₁ (others j same ▸ here)
  · intro j b₁ here held
    by_cases same : j = id
    · subst same
      rw [(after b₁ (self ▸ here)).2] at held
      cases held
    · exact pass ▸ inv.held j b₁ (others j same ▸ here) held
  · intro p j running holding
    obtain ⟨b₁, here, held⟩ := inv.holding p j (pass ▸ running) holding
    have other : j ≠ id := fun same => (before b₁ (same ▸ here)).2 held
    exact ⟨b₁, (others j other).trans here, held⟩

theorem Inv.add (inv : Inv c) (fresh : c.bufs id = none) (size : Nat) (siblings : List Nat) :
    Inv (c.addBufferToPool size siblings id) := by
  refine inv.swap id (by simp [fresh]) ?_ rfl ?_ rfl
  · rintro b ⟨⟩
    exact ⟨rfl, rfl⟩
  · funext i
    obtain ⟨l, rep, member⟩ := inv.listed i
    exact rep.clear (by simp [member, fresh])

theorem Inv.del (inv : Inv c) (here : c.bufs id = some b) (free : b.holder ≠ some .pass)
    (clean : b.dirty = false) : Inv (c.delBuffer id) := by
  refine inv.swap id ?_ (by simp) rfl rfl rfl
  intro b₁ here₁
  rw [here, Option.some.injEq] at here₁
  exact here₁ ▸ ⟨clean, free⟩

theorem Inv.addAll (size : Nat) (siblings : List Nat) (nodup : ids.Nodup)
    (inv : Inv c) (fresh : ∀ id ∈ ids, c.bufs id = none) :
    Inv (ids.foldl (addBufferToPool size siblings) c) := by
  induction ids generalizing c with
  | nil => exact inv
  | cons id ids ih =>
    rw [nodup_cons] at nodup
    refine ih nodup.2 (inv.add (fresh id mem_cons_self) size siblings) ?_
    intro j member
    have other : j ≠ id := fun same => nodup.1 (same ▸ member)
    simpa [addBufferToPool, other] using fresh j (mem_cons_of_mem _ member)

theorem addAll_bufs (size : Nat) (siblings ids : List Nat) (c : Cache) (id : Nat) :
    (ids.foldl (addBufferToPool size siblings) c).bufs id =
      if id ∈ ids then some ⟨size, 0, false, none, siblings⟩ else c.bufs id := by
  induction ids generalizing c with
  | nil => simp
  | cons j ids ih =>
    rw [foldl_cons, ih]
    by_cases later : id ∈ ids
    · simp [later]
    · by_cases same : id = j
      · simp [addBufferToPool, same]
      · simp [addBufferToPool, same]

theorem Inv.createBuffers (inv : Inv c) {dev size : Nat}
    (made : c.createBuffers dev size ids = some c') : Inv c' := by
  unfold Cache.createBuffers at made
  split at made
  · cases made
  case h_2 last isLast =>
    split at made
    case isFalse => cases made
    case isTrue fresh =>
      cases made
      refine (inv.addAll size ids fresh.1 fresh.2).relabel (b := ⟨size, 0, false, none, ids⟩) ?_
        (by simp) rfl rfl (by simp) (by simp [Sound])
      simp [addAll_bufs, mem_of_getLast? isLast]

theorem Inv.lockSiblings (inv : Inv c)
    (free : ∀ id ∈ ids, ∀ b, c.bufs id = some b → b.holder ≠ some .pass) :
    Inv (ids.foldl lockSibling c) := by
  induction ids generalizing c with
  | nil => exact inv
  | cons id ids ih =>
    rw [foldl_cons]
    cases here : c.bufs id with
    | none =>
      have step : c.lockSibling id = c := by simp [lockSibling, here]
      rw [step]
      exact ih inv (forall_mem_of_forall_mem_cons free)
    | some b =>
      have step : c.lockSibling id = c.setBuf id { b with holder := some .sibling } := by
        simp [lockSibling, here, lock]
      rw [step]
      refine ih (inv.relabel here (free id mem_cons_self b here) rfl rfl (by simp)
        (by simp [Sound])) ?_
      intro j member b₁ here₁
      by_cases same : j = id
      · subst same
        rw [setBuf_bufs, update_self, Option.some.injEq] at here₁
        simp [← here₁]
      · rw [setBuf_bufs, update_of_ne same] at here₁
        exact free j (mem_cons_of_mem _ member) b₁ here₁

theorem Inv.reclaimSiblings
    (settled : ∀ h, h = none ∨ h = some .orig → Inv (c.setBuf id { b with holder := h })) :
    Inv (c.reclaimSiblings id b) := by
  simp only [Cache.reclaimSiblings]
  split
  · exact settled none (.inl rfl)
  case isFalse unlocked =>
    refine (settled (some .orig) (.inr rfl)).lockSiblings ?_
    intro j member b₁ here held
    have other : j ≠ id := by simpa using (mem_filter.mp member).2
    rw [setBuf_bufs, update_of_ne other] at here
    exact unlocked (any_eq_true.mpr ⟨j, member, by simp [here, held]⟩)

end Pool

section Passes

variable {c c' : Cache} {p : Pass} {id : Nat} {b : Buf} {new : Option Pass}

theorem advance_idle (q : Pass) (next : p.advance = some q) : q.holding = none := by
  unfold Pass.advance at next
  split at next
  · cases next
    rfl
  · cases next

/-- A cache between two buffers of a pass. -/
theorem Inv.setPass (inv : Inv c)
    (idle : ∀ p, c.pass = some p → p.holding = none) (idle' : ∀ p, new = some p → p.holding = none) :
    Inv (c.setPass new) :=
  Inv.of_unheld inv.listed inv.sound (inv.unheld idle) idle'

/-- A pass has taken a dirty buffer off its list. -/
structure Taken (c : Cache) (id : Nat) (b : Buf) : Prop where
  listed : Listed c
  sound : ∀ id b, c.bufs id = some b → Sound b
  here : c.bufs id = some b
  dirty : b.dirty = true
  held : b.holder = some .pass
  only : ∀ j b, c.bufs j = some b → b.holder = some .pass → j = id

section

variable (taken : Taken c id b)

include taken

theorem Taken.release {b' : Buf} (listed : Listed c')
    (bufs : c'.bufs = update c.bufs id (some b')) (free : b'.holder = none)
    (idle : ∀ p, c'.pass = some p → p.holding = none) : Inv c' := by
  refine Inv.of_unheld listed ?_ ?_ idle
  · exact sound_update taken.sound bufs (by simp [Sound, free])
  intro j b₁ here held
  rw [bufs] at here
  by_cases same : j = id
  · subst same
    rw [update_self, Option.some.injEq] at here
    rw [← here, free] at held
    cases held
  · rw [update_of_ne same] at here
    exact same (taken.only j b₁ here held)

theorem Taken.putBack
    (idle : ∀ p, new = some p → p.holding = none) : Inv ((c.putBack id b).setPass new) := by
  have listed : Listed (c.putBack id b) :=
    taken.listed.link taken.here rfl rfl taken.dirty (by simp)
  have bufs : (c.putBack id b).bufs = update c.bufs id (some { b with holder := none }) := by
    simp [Cache.putBack, unlock]
  exact taken.release listed bufs rfl idle

theorem Taken.wrote (idle : ∀ p, new = some p → p.holding = none) :
    Inv ((c.unlock id (b.written true)).setPass new) := by
  have listed : Listed (c.unlock id (b.written true)) := by
    refine taken.listed.relabel taken.here fun i => ?_
    simp [On, written_true_dirty, taken.held]
  exact taken.release listed rfl rfl idle

theorem Taken.keep {q : Pass} (holding : q.holding = some id) : Inv (c.setPass (some q)) := by
  refine ⟨taken.listed, taken.sound, ?_, ?_⟩
  · intro j b₁ here held
    exact ⟨q, rfl, taken.only j b₁ here held ▸ holding⟩
  · rintro _ j ⟨⟩ same
    rw [holding, Option.some.injEq] at same
    exact ⟨b, same ▸ taken.here, taken.held⟩

theorem Taken.inspect (idle : p.holding = none) : Inv (c.inspect p id b) := by
  unfold Cache.inspect
  split
  · split
    · exact taken.putBack fun q => advance_idle q
    · split
      · exact taken.keep rfl
      · exact taken.putBack (by simpa using idle)
  · rw [if_neg (by simp [taken.dirty])]
    split
    · exact taken.putBack fun q => advance_idle q
    · exact taken.keep rfl

end

theorem Inv.taken (inv : Inv c) (running : c.pass = some p) (idle : p.holding = none)
    (head : (c.links (bufheadIndex p.size)).head = some id) (here : c.bufs id = some b) :
    Taken ((c.removeFromDirtyList id b).lock id b .pass) id { b with holder := some .pass } := by
  obtain ⟨l, rep, member⟩ := inv.listed (bufheadIndex p.size)
  obtain ⟨b₁, here₁, on⟩ := (member id).mp (mem_of_mem_head? (rep.head ▸ head))
  obtain rfl : b = b₁ := by simpa [here] using here₁
  have unheld : Unheld c := inv.unheld (by simpa [running] using idle)
  have bufs : ((c.removeFromDirtyList id b).lock id b .pass).bufs =
      update c.bufs id (some { b with holder := some .pass }) := by simp [lock]
  refine ⟨inv.listed.unlink here (on.1 ▸ on) rfl ?_, ?_, ?_, on.2.1, rfl, ?_⟩
  · exact fun i on => on.2.2 rfl
  · exact sound_update inv.sound bufs fun _ => on.2.1
  · simp [lock]
  · intro j b₂ here₂ held
    by_contra other
    refine unheld j b₂ ?_ held
    simpa [lock, update_of_ne other] using here₂

theorem Inv.getDirtyBuffer (inv : Inv c) (running : c.pass = some p) (idle : p.holding = none)
    (got : c.getDirtyBuffer p = some c') : Inv c' := by
  unfold Cache.getDirtyBuffer at got
  split at got
  · cases got
    exact inv.setPass (by simpa [running] using idle) fun q => advance_idle q
  case h_2 id head =>
    split at got
    · cases got
    case h_2 b here =>
      split at got
      · cases got
      · cases got
        exact (inv.taken running idle head here).inspect idle

theorem Inv.passWrote (inv : Inv c) (running : c.pass = some p) (holding : p.holding = some id)
    (here : c.bufs id = some b) (ok : Bool) : Inv (c.passWrote p id b ok) := by
  have held : b.holder = some .pass := by
    obtain ⟨b₁, here₁, held⟩ := inv.holding p id running holding
    obtain rfl : b = b₁ := by simpa [here] using here₁
    exact held
  have taken : Taken c id b := by
    refine ⟨inv.listed, inv.sound, here, inv.sound id b here (by simp [held]), held, ?_⟩
    intro j b₁ here₁ held₁
    obtain ⟨q, running₁, holding₁⟩ := inv.held j b₁ here₁ held₁
    obtain rfl : p = q := by simpa [running] using running₁
    simpa [holding, eq_comm] using holding₁
  cases ok with
  | false => exact taken.putBack (by simp)
  | true =>
    simp only [Cache.passWrote, if_true]
    split
    · exact taken.wrote (by simp)
    · split
      · exact taken.wrote fun q => advance_idle q
      · exact taken.wrote (by simp)

end Passes

/-! ## Every run -/

variable {holder : Option Holder}

theorem whose_eq_some {c : Cache} {id : Nat} {b : Buf} :
    c.whose id holder = some b ↔ c.bufs id = some b ∧ b.holder = holder := by
  simp [whose]

theorem of_whose {c c' : Cache} {id : Nat} {f : Buf → Cache}
    (taken : (c.whose id holder).map f = some c') :
    ∃ b, c.bufs id = some b ∧ b.holder = holder ∧ f b = c' := by
  simpa only [Option.map_eq_some_iff, whose_eq_some, and_assoc] using taken

theorem step_inv (c : Cache) (a : Label) (c' : Cache) (inv : Inv c) (safe : SafeLabel c a)
    (taken : step c a = some c') : Inv c' := by
  cases a with
  | create dev size ids => exact inv.createBuffers taken
  | getblk id =>
    obtain ⟨b, here, free, rfl⟩ := of_whose taken
    exact inv.relabel here (by simp [free]) rfl rfl (by simp) (by simp [Sound])
  | recycle id dev =>
    obtain ⟨b, here, free, rfl⟩ := of_whose taken
    unfold Cache.recycle
    split
    case isTrue dirty =>
      exact inv.relabel here (by simp [free]) rfl rfl (by simp) fun _ => dirty
    case isFalse => exact inv.relabel here (by simp [free]) rfl rfl (by simp) (by simp [Sound])
  | recycled id ok =>
    obtain ⟨b, here, held, rfl⟩ := of_whose taken
    have dirty := inv.sound id b here (by simp [held])
    cases ok with
    | false => exact inv.brelse here (by simp [held]) (by simp) (by simp)
    | true =>
      rw [Cache.recycled, Cache.brelse, if_neg (by simp [written_true_dirty])]
      exact inv.synced here (by simp [held]) dirty rfl rfl (by simp) (by simp [Sound])
  | bwrite id | brelse id =>
    obtain ⟨b, here, held, rfl⟩ := of_whose taken
    exact inv.brelse here (by simp [held]) rfl (by simp)
  | flush flusher =>
    simp only [step, unless_eq_some] at taken
    obtain ⟨idle, rfl⟩ := taken
    exact inv.setPass (by simp_all) (by simp)
  | getDirty =>
    simp only [step, Option.bind_eq_some_iff, Option.ite_none_left_eq_some] at taken
    obtain ⟨p, running, idle, taken⟩ := taken
    exact inv.getDirtyBuffer running (by simpa using idle) taken
  | wrote ok =>
    simp only [step, Option.bind_eq_some_iff, Option.map_eq_some_iff] at taken
    obtain ⟨p, running, id, holding, b, here, rfl⟩ := taken
    exact inv.passWrote running holding here ok
  | select id =>
    simp only [step, Option.map_eq_some_iff] at taken
    obtain ⟨b, -, rfl⟩ := taken
    exact ⟨inv.listed, inv.sound, inv.held, inv.holding⟩
  | selected id ok =>
    simp only [step, when_eq_some] at taken
    obtain ⟨-, rfl⟩ := taken
    cases here : c.bufs id with
    | none => exact ⟨inv.listed, inv.sound, inv.held, inv.holding⟩
    | some b =>
      -- the flag is cleared only when it is clear already
      have same : b.written ok = b := by
        cases ok with
        | false => exact written_false
        | true => exact written_of_clean (safe rfl b here) true
      have bufs : update c.bufs id (some (b.written ok)) = c.bufs := by
        rw [same, update_eq_self_iff, here]
      simp only [setBuf, bufs]
      exact ⟨inv.listed, inv.sound, inv.held, inv.holding⟩
  | reclaim id =>
    obtain ⟨b, here, free, rfl⟩ := of_whose taken
    unfold Cache.reclaim
    split
    case isTrue dirty =>
      exact inv.relabel here (by simp [free]) rfl rfl (by simp) fun _ => dirty
    case isFalse =>
      refine Inv.reclaimSiblings ?_
      rintro h (rfl | rfl)
      all_goals exact inv.relabel here (by simp [free]) rfl rfl (by simp) (by simp [Sound])
  | reclaimed id ok =>
    obtain ⟨b, here, held, rfl⟩ := of_whose taken
    have dirty := inv.sound id b here (by simp [held])
    refine Inv.reclaimSiblings ?_
    rintro h (rfl | rfl)
    all_goals exact inv.synced here (by simp [held]) dirty rfl rfl (by simp) (by simp [Sound])
  | freeSibling id ok =>
    obtain ⟨b, here, held, rfl⟩ := of_whose taken
    unfold Cache.freeSibling
    split
    case isFalse clean => exact inv.del here (by simp [held]) (by simpa using clean)
    case isTrue dirty =>
      obtain rfl := safe b here dirty
      have synced : Inv ((c.syncAndRemove id b true).setBuf id (b.written true)) :=
        inv.synced here (by simp [held]) dirty rfl rfl (by simp [written, held])
          (by simp [Sound, written, held])
      have here' : ((c.syncAndRemove id b true).setBuf id (b.written true)).bufs id =
          some (b.written true) := by simp
      have gone := synced.del here' (by simp [written, held]) written_true_dirty
      simpa [delBuffer, setBuf] using gone
  | freeOrig id =>
    simp only [step, Option.map_eq_some_iff, Option.filter_eq_some_iff, whose_eq_some] at taken
    obtain ⟨b, ⟨⟨here, held⟩, -⟩, rfl⟩ := taken
    exact inv.del here (by simp [held]) (safe b here)

theorem Inv.inOrder {c : Cache} (inv : Inv c) : InOrder c := by
  refine ⟨?_, ?_, inv.held⟩
  · intro i
    obtain ⟨l, rep, member⟩ := inv.listed i
    refine ⟨l, rep, fun id listed => ?_⟩
    obtain ⟨b, here, on⟩ := (member id).mp listed
    exact ⟨b, here, on.1⟩
  · intro id b here free
    obtain ⟨l, rep, member⟩ := inv.listed (bufheadIndex b.size)
    rw [rep.linked_iff, member]
    simp [here, On, free]

theorem bufferInit_inv (maxDirty : Int) : Inv (bufferInit maxDirty) := by
  refine Inv.of_unheld ?_ ?_ ?_ ?_
  · exact fun i => ⟨[], Links.represents_empty, by simp [bufferInit]⟩
  · simp [bufferInit]
  · simp [Unheld, bufferInit]
  · simp [bufferInit]

/-- **The dirty lists stay in order over every run** in which no selective write clears the flag
of a dirty buffer and no buffer is freed dirty. -/
theorem dirty_list_invariant (maxDirty : Int) (labels : List Label) (c : Cache)
    (safe : Guarded step SafeLabel (bufferInit maxDirty) labels)
    (ran : run step (bufferInit maxDirty) labels = some c) : InOrder c :=
  (run_inv step_inv (bufferInit_inv maxDirty) safe ran).inOrder

/-! ## Poles -/

instance (c : Cache) (a : Label) : Decidable (SafeLabel c a) := by
  cases a <;> unfold SafeLabel <;> infer_instance

/-- Two buffers of one page are dirtied; a sync of their device fails on the first and writes the
second, `kbdflushd` writes the first, a selective write fails, and the page is reclaimed. -/
def busyCache : List Label :=
  [.create 3 2048 [0, 1], .bwrite 1, .recycle 0 3, .bwrite 0,
    .flush (.sync 3), .getDirty, .getDirty, .getDirty, .wrote false, .getDirty, .wrote true,
    .select 1, .selected 1 false, .getDirty, .wrote true, .getDirty, .getDirty,
    .getblk 0, .bwrite 0, .flush .kbdflushd, .getDirty, .getDirty, .getDirty, .wrote false,
    .getDirty, .getDirty,
    .reclaim 1, .freeSibling 0 true, .freeOrig 1]

theorem dirty_list_invariant_busyCache :
    ∃ c, run step (bufferInit 100) busyCache = some c ∧ InOrder c := by
  refine exists_run (by decide +kernel) fun c ran => ?_
  exact dirty_list_invariant 100 busyCache c (Guarded.of_decide (by decide +kernel)) ran

/-- A dirty buffer is written by `sync_buffers_select`. -/
def selectRun : List Label := [.create 3 1024 [0], .bwrite 0, .select 0, .selected 0 true]

/-- A whole pass of `kbdflushd`. -/
def flusherPass : List Label :=
  [.flush .kbdflushd, .getDirty, .getDirty, .getDirty, .getDirty, .getDirty]

/-- **A linked buffer that is not dirty**: `sync_buffers_select` does not unlink what it writes. The
next pass of `kbdflushd` takes the buffer and ends without unlocking it. -/
theorem select_leaves_linked :
    (∃ c b, run step (bufferInit 100) selectRun = some c ∧ c.bufs 0 = some b ∧ b.holder = none ∧
        (c.links (bufheadIndex b.size)).linked 0 = true ∧ b.dirty = false ∧ ¬InOrder c) ∧
      ∃ c b, run step (bufferInit 100) (selectRun ++ flusherPass) = some c ∧ c.pass = none ∧
        c.bufs 0 = some b ∧ b.holder = some .pass ∧ ¬InOrder c := by
  constructor
  · have ends : (run step (bufferInit 100) selectRun).any (fun c => (c.bufs 0).any fun b =>
        b.holder == none && (c.links (bufheadIndex b.size)).linked 0 && !b.dirty) = true := by
      decide +kernel
    simp only [Option.any_eq_true, Bool.and_eq_true, beq_iff_eq, Bool.not_eq_true'] at ends
    obtain ⟨c, ran, b, here, ⟨free, linked⟩, clean⟩ := ends
    refine ⟨c, b, ran, here, free, linked, clean, fun order => ?_⟩
    have dirty := (order.linked 0 b here (by simp [free])).mp linked
    simp [clean] at dirty
  · have ends : (run step (bufferInit 100) (selectRun ++ flusherPass)).any (fun c =>
        c.pass == none && (c.bufs 0).any fun b => b.holder == some .pass) = true := by
      decide +kernel
    simp only [Option.any_eq_true, Bool.and_eq_true, beq_iff_eq] at ends
    obtain ⟨c, ran, overrun, b, here, held⟩ := ends
    refine ⟨c, b, ran, overrun, here, held, fun order => ?_⟩
    obtain ⟨p, running, -⟩ := order.released 0 b here held
    simp [overrun] at running

end Argentum.Fs.DirtyList
