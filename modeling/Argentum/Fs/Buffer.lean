/-
# Fs.Buffer — the buffer cache of one block device

The part of `fs/buffer.c` that one mounted volume sees: buffers of one size on
one device. A buffer is found by its block number (`search_buffer_hash`); it
carries its content and the flags `BUFFER_DIRTY` and `BUFFER_LOCKED`, and holds a
completed read.

`dirtyList` is the chain from `buffer_dirty_head`, head first. The journal depends on
two habits of the source:

* `sync_buffers_select` clears the dirty flag of what it writes but leaves the
  buffer on the dirty list, so the next `sync_buffers` writes it once more;
* `sync_buffers` writes whatever is linked, in list order.

`writes` records every block write the device has completed, oldest first: the
disk after a crash is the disk some prefix of them left (`Wrote`).
-/
import Argentum.Lib.WriteLog

namespace Argentum.Fs

open Lib.WriteLog

/-- Block writes, oldest first. -/
abbrev Writes (D : Type) := List (Nat × D)

/-- Log entries, each the writes of one transaction. -/
abbrev Entries (D : Type) := List (Writes D)

structure Buffer (D : Type) where
  data : D
  dirty : Bool
  locked : Bool
  deriving DecidableEq

structure Dev (D : Type) where
  disk : Nat → D
  buf : Nat → Option (Buffer D)
  dirtyList : List Nat
  writes : Writes D

namespace Dev

variable {D : Type} {c : Nat} {dev' : Dev D} {ws : Writes D} {vs : Writes D} {w : Nat × D}

/-- A device just powered on: nothing cached. -/
def cold (disk : Nat → D) : Dev D :=
  { disk := disk, buf := fun _ => none, dirtyList := [], writes := [] }

section

variable (dev : Dev D) (b : Nat) (d : D)

/-- The content `bread` hands out: the cached buffer's, else the disk's. -/
def peek : D :=
  match dev.buf b with
  | some bf => bf.data
  | none => dev.disk b

def setBuf (bf : Buffer D) : Dev D :=
  { dev with buf := Function.update dev.buf b (some bf) }

/-- `bread`: the block's buffer, read from the device on a miss, now locked. -/
def bread : Dev D :=
  match dev.buf b with
  | some bf => dev.setBuf b { bf with locked := true }
  | none => dev.setBuf b { data := dev.disk b, dirty := false, locked := true }

/-- The caller changes the content of a buffer it holds. -/
def modify : Dev D :=
  match dev.buf b with
  | some bf => dev.setBuf b { bf with data := d }
  | none => dev

/-- `insert_on_dirty_list`: nothing happens when the buffer is linked already. -/
def link (l : List Nat) (b : Nat) : List Nat := if b ∈ l then l else l ++ [b]

/-- `brelse`: a dirty buffer goes on the dirty list; unlock. -/
def brelse : Dev D :=
  match dev.buf b with
  | some bf =>
    { dev.setBuf b { bf with locked := false } with
      dirtyList := if bf.dirty then link dev.dirtyList b else dev.dirtyList }
  | none => dev

/-- `bwrite`: mark dirty, release. -/
def bwrite (dev : Dev D) (b : Nat) : Dev D :=
  match dev.buf b with
  | some bf => (dev.setBuf b { bf with dirty := true }).brelse b
  | none => dev

/-- `bread`, overwrite the whole block, `bwrite`. -/
def store : Dev D := ((dev.bread b).modify b d).bwrite b

/-- `buffer_locked`. -/
def bufferLocked : Bool :=
  match dev.buf b with
  | some bf => bf.locked
  | none => false

/-- `sync_one_buffer`: the device write, then the dirty flag is cleared. -/
def syncOne : Dev D :=
  match dev.buf b with
  | some bf =>
    { dev.setBuf b { bf with dirty := false } with
      disk := put dev.disk (b, bf.data)
      writes := dev.writes ++ [(b, bf.data)] }
  | none => dev

/-- `sync_buffers`: unlink and write every buffer of the dirty list, in order. -/
def syncBuffers : Dev D :=
  { dev.dirtyList.foldl syncOne dev with dirtyList := [] }

/-- The buffers a selective flush writes: dirty and not locked. -/
def flushable : Bool :=
  match dev.buf b with
  | some bf => bf.dirty && !bf.locked
  | none => false

def selectOne : Dev D := if dev.flushable b then dev.syncOne b else dev

/-- `sync_buffers_select`: the flushable buffers of `[first, first + count)`. -/
def syncSelect (first count : Nat) : Dev D :=
  (List.range' first count).foldl selectOne dev

end

/-! ## What each operation leaves -/

section

variable (dev : Dev D) (b : Nat) (bf : Buffer D)

include dev b bf

@[simp] theorem setBuf_disk : (dev.setBuf b bf).disk = dev.disk := rfl

@[simp] theorem setBuf_writes : (dev.setBuf b bf).writes = dev.writes := rfl

@[simp] theorem setBuf_dirtyList : (dev.setBuf b bf).dirtyList = dev.dirtyList := rfl

@[simp] theorem setBuf_same : (dev.setBuf b bf).buf b = some bf := by simp [setBuf]

end

theorem setBuf_ne (dev : Dev D) {b : Nat} (bf : Buffer D) (ne : c ≠ b) :
    (dev.setBuf b bf).buf c = dev.buf c := by simp [setBuf, ne]

@[simp] theorem setBuf_setBuf (dev : Dev D) (b : Nat) (x y : Buffer D) :
    (dev.setBuf b x).setBuf b y = dev.setBuf b y := by simp [setBuf]

theorem mem_link {l : List Nat} {b : Nat} : c ∈ link l b ↔ c ∈ l ∨ c = b := by
  unfold link
  split
  · rename_i present
    constructor
    · exact .inl
    · rintro (old | rfl)
      · exact old
      · exact present
  · simp

section

variable (dev : Dev D) (b : Nat) (d : D)

include dev b d

/-- A whole-block overwrite leaves the block dirty, unlocked and linked. -/
theorem store_eq :
    dev.store b d =
      { dev.setBuf b { data := d, dirty := true, locked := false } with
        dirtyList := link dev.dirtyList b } := by
  unfold store bread
  cases cached : dev.buf b with
  | none | some bf => simp [modify, bwrite, brelse]

@[simp] theorem store_disk : (dev.store b d).disk = dev.disk := by
  rw [store_eq]; rfl

@[simp] theorem store_writes : (dev.store b d).writes = dev.writes := by
  rw [store_eq]; rfl

@[simp] theorem store_dirtyList : (dev.store b d).dirtyList = link dev.dirtyList b := by
  rw [store_eq]

theorem store_same :
    (dev.store b d).buf b = some { data := d, dirty := true, locked := false } := by
  rw [store_eq]; simp [setBuf]

end

theorem store_ne (dev : Dev D) {b : Nat} (d : D) (ne : c ≠ b) :
    (dev.store b d).buf c = dev.buf c := by
  rw [store_eq]; simp [setBuf, ne]

theorem store_peek (dev : Dev D) (b : Nat) (d : D) : (dev.store b d).peek = put dev.peek (b, d) := by
  funext c
  by_cases here : c = b
  · subst here
    simp [peek, store_same, put]
  · rw [put_of_ne _ _ here]
    simp [peek, store_ne dev d here]

theorem bufferLocked_congr {dev : Dev D} {b : Nat} (same : dev'.buf b = dev.buf b) :
    dev'.bufferLocked b = dev.bufferLocked b := by
  rw [bufferLocked, same, bufferLocked]

theorem store_bufferLocked (dev : Dev D) (b : Nat) (d : D) (c : Nat) :
    (dev.store b d).bufferLocked c = if c = b then false else dev.bufferLocked c := by
  split
  · rename_i here
    rw [here, bufferLocked, store_same]
  · rename_i other
    exact bufferLocked_congr (store_ne dev d other)

def storeAll (dev : Dev D) (ws : Writes D) : Dev D :=
  ws.foldl (fun dev w => dev.store w.1 w.2) dev

@[simp] theorem storeAll_nil (dev : Dev D) : dev.storeAll [] = dev := rfl

@[simp] theorem storeAll_cons (dev : Dev D) (w : Nat × D) (ws : Writes D) :
    dev.storeAll (w :: ws) = (dev.store w.1 w.2).storeAll ws := rfl

theorem storeAll_append (dev : Dev D) (ws vs : Writes D) :
    dev.storeAll (ws ++ vs) = (dev.storeAll ws).storeAll vs := by
  simp [storeAll, List.foldl_append]

@[simp] theorem storeAll_disk (dev : Dev D) (ws : Writes D) :
    (dev.storeAll ws).disk = dev.disk := by
  induction ws generalizing dev with
  | nil => rfl
  | cons w ws ih => rw [storeAll_cons, ih, store_disk]

@[simp] theorem storeAll_writes (dev : Dev D) (ws : Writes D) :
    (dev.storeAll ws).writes = dev.writes := by
  induction ws generalizing dev with
  | nil => rfl
  | cons w ws ih => rw [storeAll_cons, ih, store_writes]

theorem storeAll_peek (dev : Dev D) (ws : Writes D) :
    (dev.storeAll ws).peek = putAll dev.peek ws := by
  induction ws generalizing dev with
  | nil => rfl
  | cons w ws ih => rw [storeAll_cons, ih, store_peek, putAll_cons]

theorem mem_storeAll_dirtyList {dev : Dev D} {b : Nat} :
    b ∈ (dev.storeAll ws).dirtyList ↔ b ∈ dev.dirtyList ∨ b ∈ keys ws := by
  induction ws generalizing dev with
  | nil => simp
  | cons w ws ih =>
    rw [storeAll_cons, ih, store_dirtyList, mem_link, keys_cons, List.mem_cons, or_assoc]

theorem storeAll_of_not_mem (dev : Dev D) {b : Nat} (absent : b ∉ keys ws) :
    (dev.storeAll ws).buf b = dev.buf b := by
  induction ws generalizing dev with
  | nil => rfl
  | cons w ws ih =>
    rw [keys_cons, List.mem_cons, not_or] at absent
    rw [storeAll_cons, ih _ absent.2, store_ne dev w.2 absent.1]

/-! ## Reading and releasing -/

section

variable (dev : Dev D) (b : Nat)

include dev b

@[simp] theorem bread_disk : (dev.bread b).disk = dev.disk := by
  unfold bread; split <;> rfl

@[simp] theorem bread_writes : (dev.bread b).writes = dev.writes := by
  unfold bread; split <;> rfl

@[simp] theorem bread_dirtyList : (dev.bread b).dirtyList = dev.dirtyList := by
  unfold bread; split <;> rfl

@[simp] theorem bread_peek : (dev.bread b).peek = dev.peek := by
  funext c
  by_cases here : c = b
  · subst here
    cases cached : dev.buf c <;> simp [bread, peek, cached]
  · cases cached : dev.buf b <;> simp [bread, peek, cached, setBuf_ne _ _ here]

@[simp] theorem brelse_disk : (dev.brelse b).disk = dev.disk := by
  unfold brelse; split <;> rfl

@[simp] theorem brelse_writes : (dev.brelse b).writes = dev.writes := by
  unfold brelse; split <;> rfl

@[simp] theorem brelse_peek : (dev.brelse b).peek = dev.peek := by
  funext c
  by_cases here : c = b
  · subst here
    cases cached : dev.buf c <;> simp [brelse, peek, cached]
  · cases cached : dev.buf b with
    | none => simp [brelse, peek, cached]
    | some bf =>
      have other := setBuf_ne dev { bf with locked := false } here
      simp [brelse, peek, cached, other]

theorem bread_modify_peek (d : D) : ((dev.bread b).modify b d).peek = put dev.peek (b, d) := by
  have shape : ∃ bf : Buffer D, bf.data = d ∧ (dev.bread b).modify b d = dev.setBuf b bf := by
    cases cached : dev.buf b with
    | none => exact ⟨⟨d, false, true⟩, rfl, by simp [bread, modify, cached]⟩
    | some bf => exact ⟨⟨d, bf.dirty, true⟩, rfl, by simp [bread, modify, cached]⟩
  obtain ⟨bf, data, shape⟩ := shape
  rw [shape]
  funext c
  by_cases here : c = b
  · subst here
    simp [peek, put, data]
  · rw [put_of_ne _ _ here]
    simp [peek, setBuf_ne dev bf here]

@[simp] theorem bwrite_peek : (dev.bwrite b).peek = dev.peek := by
  unfold bwrite
  split
  · rename_i bf cached
    rw [brelse_peek]
    funext c
    by_cases here : c = b
    · subst here
      simp [peek, cached]
    · simp [peek, setBuf_ne dev _ here]
  · rfl

end

theorem modify_peek_ne (dev : Dev D) {b : Nat} (d : D) (ne : c ≠ b) :
    (dev.modify b d).peek c = dev.peek c := by
  unfold modify
  split
  · simp [peek, setBuf_ne dev _ ne]
  · rfl

theorem bread_bufferLocked (dev : Dev D) (b c : Nat) :
    (dev.bread b).bufferLocked c = if c = b then true else dev.bufferLocked c := by
  split
  · rename_i here
    subst here
    cases cached : dev.buf c <;> simp [bread, bufferLocked, cached]
  · rename_i other
    apply bufferLocked_congr
    cases cached : dev.buf b <;> simp [bread, cached, setBuf_ne dev _ other]

theorem modify_bufferLocked (dev : Dev D) (b : Nat) (d : D) (c : Nat) :
    (dev.modify b d).bufferLocked c = dev.bufferLocked c := by
  by_cases here : c = b
  · subst here
    cases cached : dev.buf c <;> simp [modify, bufferLocked, cached]
  · apply bufferLocked_congr
    cases cached : dev.buf b <;> simp [modify, cached, setBuf_ne dev _ here]

theorem brelse_bufferLocked (dev : Dev D) (b c : Nat) :
    (dev.brelse b).bufferLocked c = if c = b then false else dev.bufferLocked c := by
  split
  · rename_i here
    subst here
    cases cached : dev.buf c <;> simp [brelse, bufferLocked, cached]
  · rename_i other
    apply bufferLocked_congr
    cases cached : dev.buf b with
    | none => simp [brelse, cached]
    | some bf =>
      have same := setBuf_ne dev { bf with locked := false } other
      simp [brelse, cached, same]

theorem bwrite_bufferLocked (dev : Dev D) (b c : Nat) :
    (dev.bwrite b).bufferLocked c = if c = b then false else dev.bufferLocked c := by
  cases cached : dev.buf b with
  | none =>
    split
    · rename_i here
      subst here
      simp [bwrite, bufferLocked, cached]
    · simp [bwrite, cached]
  | some bf =>
    have shape : dev.bwrite b = (dev.setBuf b { bf with dirty := true }).brelse b := by
      simp [bwrite, cached]
    rw [shape, brelse_bufferLocked]
    split
    · rfl
    · rename_i other
      exact bufferLocked_congr (setBuf_ne dev _ other)

theorem mem_brelse_dirtyList {dev : Dev D} {b : Nat} (linked : c ∈ dev.dirtyList) :
    c ∈ (dev.brelse b).dirtyList := by
  cases cached : dev.buf b with
  | none => simpa [brelse, cached] using linked
  | some bf =>
    simp only [brelse, cached]
    split
    · exact mem_link.mpr (.inl linked)
    · exact linked

/-! ## What reaches the disk -/

/-- The operation from `dev` to `dev'` completed exactly the block writes `new`. -/
structure Wrote (dev dev' : Dev D) (new : Writes D) : Prop where
  writes : dev'.writes = dev.writes ++ new
  disk : dev'.disk = putAll dev.disk new

theorem Wrote.none {dev : Dev D} (writes : dev'.writes = dev.writes)
    (disk : dev'.disk = dev.disk) : Wrote dev dev' [] :=
  ⟨by simp [writes], by simp [disk]⟩

theorem Wrote.trans {dev dev₁ dev₂ : Dev D} (first : Wrote dev dev₁ ws)
    (next : Wrote dev₁ dev₂ vs) : Wrote dev dev₂ (ws ++ vs) :=
  ⟨by rw [next.writes, first.writes, List.append_assoc],
   by rw [next.disk, first.disk, putAll_append]⟩

/-- The writes an operation added are the tail of the device's record. -/
theorem Wrote.new_eq {dev : Dev D} {new : Writes D} (wrote : Wrote dev dev' new) :
    dev'.writes.drop dev.writes.length = new := by
  rw [wrote.writes, List.drop_left]

/-- The disk a crash leaves between `dev` and `dev'`, after `k` of the writes made there. -/
def crashDisk (dev dev' : Dev D) (k : Nat) : Nat → D :=
  putAll dev.disk ((dev'.writes.drop dev.writes.length).take k)

/-- A crash in the course of two operations is a crash in one of them. -/
theorem crashDisk_split {dev dev₁ dev₂ : Dev D} (first : Wrote dev dev₁ ws)
    (next : Wrote dev₁ dev₂ vs) (k : Nat) :
    crashDisk dev dev₂ k =
      if k ≤ ws.length then crashDisk dev dev₁ k else crashDisk dev₁ dev₂ (k - ws.length) := by
  rw [crashDisk, (first.trans next).new_eq]
  split
  · rename_i within
    rw [List.take_append_of_le_length within, crashDisk, first.new_eq]
  · rw [List.take_append, List.take_of_length_le (by omega), putAll_append, crashDisk, next.new_eq,
      first.disk]

/-- An operation that wrote nothing does not move the crash. -/
theorem crashDisk_still {dev dev₁ dev₂ : Dev D} (writes : dev₁.writes = dev.writes)
    (disk : dev₁.disk = dev.disk) (k : Nat) : crashDisk dev dev₂ k = crashDisk dev₁ dev₂ k := by
  rw [crashDisk, crashDisk, writes, disk]

/-- `P` holds of every disk a crash can leave between `dev` and `dev'`. -/
def Through (P : (Nat → D) → Prop) (dev dev' : Dev D) : Prop :=
  ∃ new, Wrote dev dev' new ∧ Throughout P dev.disk new

section Through

variable {P Q : (Nat → D) → Prop} {dev dev₁ dev₂ : Dev D}

theorem Through.crash (through : Through P dev dev₁) (k : Nat) : P (crashDisk dev dev₁ k) := by
  obtain ⟨new, wrote, all⟩ := through
  rw [crashDisk, wrote.new_eq]
  exact all k

theorem Through.trans (first : Through P dev dev₁) (next : Through P dev₁ dev₂) :
    Through P dev dev₂ := by
  obtain ⟨ws, wrote, all⟩ := first
  obtain ⟨vs, wrote', all'⟩ := next
  rw [wrote.disk] at all'
  exact ⟨ws ++ vs, wrote.trans wrote', throughout_append all all'⟩

theorem Through.mono (through : Through P dev dev₁) (weaker : ∀ m, P m → Q m) :
    Through Q dev dev₁ := by
  obtain ⟨ws, wrote, all⟩ := through
  exact ⟨ws, wrote, all.mono weaker⟩

/-- An operation that writes nothing. -/
theorem Through.still (writes : dev₁.writes = dev.writes) (disk : dev₁.disk = dev.disk)
    (start : P dev.disk) : Through P dev dev₁ :=
  ⟨[], Wrote.none writes disk, throughout_nil start⟩

end Through

/-- The write `syncOne` makes. -/
def image (dev : Dev D) (b : Nat) : Option (Nat × D) := (dev.buf b).map fun bf => (b, bf.data)

theorem image_eq_some {dev : Dev D} {b : Nat} (found : dev.image b = some w) :
    w = (b, dev.peek b) := by
  unfold image at found
  unfold peek
  cases cached : dev.buf b with
  | none => simp [cached] at found
  | some bf => simpa [cached] using found.symm

/-- A block that has no buffer has nothing newer than the disk. -/
theorem peek_of_image_none {dev : Dev D} {b : Nat} (absent : dev.image b = none) :
    dev.peek b = dev.disk b := by
  unfold image at absent
  unfold peek
  cases cached : dev.buf b with
  | none => rfl
  | some bf => simp [cached] at absent

@[simp] theorem syncOne_dirtyList (dev : Dev D) (b : Nat) :
    (dev.syncOne b).dirtyList = dev.dirtyList := by
  unfold syncOne; split <;> rfl

theorem syncOne_buf_ne (dev : Dev D) {b : Nat} (ne : c ≠ b) :
    (dev.syncOne b).buf c = dev.buf c := by
  unfold syncOne
  split
  · exact setBuf_ne dev _ ne
  · rfl

theorem syncOne_bufferLocked (dev : Dev D) (b c : Nat) :
    (dev.syncOne b).bufferLocked c = dev.bufferLocked c := by
  by_cases here : c = b
  · subst here
    cases cached : dev.buf c <;> simp [syncOne, bufferLocked, cached]
  · exact bufferLocked_congr (syncOne_buf_ne dev here)

theorem syncOne_image (dev : Dev D) (b : Nat) : (dev.syncOne b).image = dev.image := by
  funext c
  by_cases here : c = b
  · subst here
    cases cached : dev.buf c <;> simp [syncOne, image, cached, setBuf]
  · simp [image, syncOne_buf_ne dev here]

theorem syncOne_wrote (dev : Dev D) (b : Nat) : Wrote dev (dev.syncOne b) (dev.image b).toList := by
  cases cached : dev.buf b <;> constructor <;> simp [syncOne, image, cached]

@[simp] theorem syncOne_peek (dev : Dev D) (b : Nat) : (dev.syncOne b).peek = dev.peek := by
  funext c
  by_cases here : c = b
  · subst here
    cases cached : dev.buf c <;> simp [syncOne, peek, cached, setBuf]
  · have other := syncOne_buf_ne dev here
    have unwritten : (dev.syncOne b).disk c = dev.disk c := by
      unfold syncOne
      split
      · exact put_of_ne _ _ here
      · rfl
    simp [peek, other, unwritten]

/-- The writes `sync_buffers` makes. -/
def dirtyWrites (dev : Dev D) : Writes D := dev.dirtyList.filterMap dev.image

theorem foldl_syncOne (dev : Dev D) (bs : List Nat) :
    Wrote dev (bs.foldl syncOne dev) (bs.filterMap dev.image) ∧
      (bs.foldl syncOne dev).peek = dev.peek := by
  induction bs generalizing dev with
  | nil => exact ⟨Wrote.none rfl rfl, rfl⟩
  | cons b bs ih =>
    obtain ⟨wrote, peek⟩ := ih (dev.syncOne b)
    rw [syncOne_image] at wrote
    refine ⟨?_, by rw [List.foldl_cons, peek, syncOne_peek]⟩
    have all := (syncOne_wrote dev b).trans wrote
    cases found : dev.image b with
    | none | some w => simpa [found, List.filterMap_cons] using all

theorem syncBuffers_wrote (dev : Dev D) : Wrote dev dev.syncBuffers dev.dirtyWrites :=
  ⟨(foldl_syncOne dev dev.dirtyList).1.writes, (foldl_syncOne dev dev.dirtyList).1.disk⟩

/-- A store that was given only current contents holds them wherever it was given one. -/
theorem putAll_images (m : Nat → D) (dev : Dev D) (bs : List Nat) (b : Nat) :
    putAll m (bs.filterMap dev.image) b =
      if b ∈ bs ∧ (dev.image b).isSome then dev.peek b else m b := by
  split
  · rename_i written
    refine putAll_eq_of_forall (fun v member => ?_) fun absent => absurd ?_ absent
    · obtain ⟨c, _, found⟩ := List.mem_filterMap.mp member
      have same := image_eq_some found
      grind
    · obtain ⟨w, found⟩ := Option.isSome_iff_exists.mp written.2
      refine mem_keys.mpr ⟨w.2, List.mem_filterMap.mpr ⟨b, written.1, ?_⟩⟩
      rw [found, image_eq_some found]
  · rename_i unwritten
    refine putAll_of_not_mem m fun written => unwritten ?_
    obtain ⟨v, member⟩ := mem_keys.mp written
    obtain ⟨c, linked, found⟩ := List.mem_filterMap.mp member
    have same := image_eq_some found
    have here : b = c := congrArg Prod.fst same
    subst here
    exact ⟨linked, by simp [found]⟩

@[simp] theorem syncBuffers_peek (dev : Dev D) : dev.syncBuffers.peek = dev.peek :=
  (foldl_syncOne dev dev.dirtyList).2

theorem syncBuffers_disk (dev : Dev D) (b : Nat) :
    dev.syncBuffers.disk b = if b ∈ dev.dirtyList then dev.peek b else dev.disk b := by
  rw [(syncBuffers_wrote dev).disk, dirtyWrites, putAll_images]
  cases found : dev.image b with
  | none => simp [peek_of_image_none found]
  | some w => simp

/-- The write a selective flush makes at one block. -/
def selected (dev : Dev D) (b : Nat) : Option (Nat × D) :=
  if dev.flushable b then dev.image b else none

theorem selected_eq_some {dev : Dev D} {b : Nat} (found : dev.selected b = some w) :
    w = (b, dev.peek b) := by
  unfold selected at found
  split at found
  · exact image_eq_some found
  · cases found

theorem flushable_congr {dev : Dev D} {b : Nat} (same : dev'.buf b = dev.buf b) :
    dev'.flushable b = dev.flushable b := by
  simp [flushable, same]

theorem selected_of_flushable {dev : Dev D} {b : Nat} (ready : dev.flushable b = true) :
    dev.selected b = some (b, dev.peek b) := by
  cases cached : dev.buf b with
  | none => simp [flushable, cached] at ready
  | some bf => simp [selected, ready, image, cached, peek]

theorem selectOne_buf_ne (dev : Dev D) {b : Nat} (ne : c ≠ b) :
    (dev.selectOne b).buf c = dev.buf c := by
  unfold selectOne
  split
  · exact syncOne_buf_ne dev ne
  · rfl

/-- A selective flush of distinct blocks decides each of them by its own buffer. -/
theorem foldl_selectOne (dev : Dev D) {bs : List Nat} (nodup : bs.Nodup) :
    Wrote dev (bs.foldl selectOne dev) (bs.filterMap dev.selected) ∧
      (bs.foldl selectOne dev).peek = dev.peek ∧
      (bs.foldl selectOne dev).dirtyList = dev.dirtyList ∧
      ∀ c, c ∉ bs → (bs.foldl selectOne dev).buf c = dev.buf c := by
  induction bs generalizing dev with
  | nil => exact ⟨Wrote.none rfl rfl, rfl, rfl, fun _ _ => rfl⟩
  | cons b bs ih =>
    rw [List.nodup_cons] at nodup
    obtain ⟨wrote, peek, dirty, others⟩ := ih (dev.selectOne b) nodup.2
    have head : Wrote dev (dev.selectOne b) (dev.selected b).toList := by
      unfold selectOne selected
      split
      · exact syncOne_wrote dev b
      · exact Wrote.none rfl rfl
    have tail : bs.filterMap (dev.selectOne b).selected = bs.filterMap dev.selected := by
      refine List.filterMap_congr fun c member => ?_
      have ne : c ≠ b := fun same => nodup.1 (same ▸ member)
      have same := selectOne_buf_ne dev ne
      simp [selected, image, same, flushable_congr same]
    refine ⟨?_, ?_, ?_, fun c absent => ?_⟩
    · rw [tail] at wrote
      have all := head.trans wrote
      cases found : dev.selected b with
      | none | some w => simpa [found, List.filterMap_cons] using all
    · rw [List.foldl_cons, peek]
      unfold selectOne
      split
      · exact syncOne_peek dev b
      · rfl
    · rw [List.foldl_cons, dirty]
      unfold selectOne
      split
      · exact syncOne_dirtyList dev b
      · rfl
    · rw [List.mem_cons, not_or] at absent
      rw [List.foldl_cons, others c absent.2, selectOne_buf_ne dev absent.1]

section Select

variable (dev : Dev D) (first count : Nat)

theorem syncSelect_wrote :
    Wrote dev (dev.syncSelect first count) ((List.range' first count).filterMap dev.selected) :=
  (foldl_selectOne dev List.nodup_range').1

@[simp] theorem syncSelect_peek : (dev.syncSelect first count).peek = dev.peek :=
  (foldl_selectOne dev List.nodup_range').2.1

@[simp] theorem syncSelect_dirtyList : (dev.syncSelect first count).dirtyList = dev.dirtyList :=
  (foldl_selectOne dev List.nodup_range').2.2.1

end Select

end Dev

end Argentum.Fs
