/-
# Agfs.Indices — the indices say what the inodes say

The calls that change a name, a size or a time keep the three indices of a volume
`Consistent`: an inode in use has one entry in each, under the key that the inode holds
now, and nothing else has an entry. The root is apart: it has no name, and is entered under
size and time when it is first changed.

`indices_consistent` says so of calls that succeed, as long as no file loses one of
several names, is renamed under another name than its record has, or is given a modification
time of its own. `linked_file_unindexed` shows the first.
-/
import Argentum.Agfs.Namespace

namespace Argentum.Agfs.Indices

open Lib.Machine Agfs.Namespace
open Option (map_eq_some_iff any_eq_true)
open Vol (put ifree indexAdd indexRemove resize setDir)
open Inode (touch)

/-! ## Keys -/

/-- The keys under which an index has the inode. -/
def keysOf {κ : Type} (idx : Index κ) (ino : Ino) : List κ :=
  (idx.filter fun entry => entry.2 = ino).map (·.1)

section Keys

variable {κ : Type} (idx : Index κ) (k : κ) (ino x : Ino)

theorem keysOf_cons :
    keysOf ((k, ino) :: idx) x = if x = ino then k :: keysOf idx x else keysOf idx x := by
  by_cases same : x = ino
  · subst same
    simp [keysOf]
  · simp [keysOf, same, Ne.symm same]

theorem keysOf_erase [DecidableEq κ] :
    keysOf (idx.erase (k, ino)) x = if x = ino then (keysOf idx x).erase k else keysOf idx x := by
  induction idx with
  | nil => simp [keysOf]
  | cons entry idx ih =>
    obtain ⟨key, owner⟩ := entry
    rw [List.erase_cons]
    split
    · rename_i found
      obtain ⟨rfl, rfl⟩ : key = k ∧ owner = ino := by simpa using found
      rw [keysOf_cons]
      split <;> simp
    · rename_i other
      have other : ¬ (key = k ∧ owner = ino) := by simpa using other
      rw [keysOf_cons, keysOf_cons, ih]
      by_cases owned : x = owner
      · subst owned
        by_cases same : x = ino
        · subst same
          have different : key ≠ k := fun equal => other ⟨equal, rfl⟩
          simp [different]
        · simp [same]
      · simp [owned]

end Keys

/-- All that the volume has of one inode, its directory apart. -/
structure Slot where
  inode : Option Inode
  names : List Name
  sizes : List UInt32
  times : List Nat

def slot (v : Vol) (ino : Ino) : Slot :=
  ⟨v.inodes ino, keysOf v.nameIndex ino, keysOf v.sizeIndex ino, keysOf v.timeIndex ino⟩

/-- Writing the inode does not change its stored time. -/
structure Timed (i : Inode) : Prop where
  stored : i.stored = i.lastModified
  fits : i.lastModified < 2 ^ 64

/-- An inode with links, as many as there may be. -/
structure Linked (i : Inode) : Prop where
  linked : i.nlink ≠ 0
  few : i.nlink ≤ linkMax
  timed : Timed i

/-- A slot that is as it should be; the flag tells whether it is the root's. -/
inductive SlotOk : Bool → Slot → Prop where
  | free : SlotOk false ⟨none, [], [], []⟩
  | dead (i : Inode) (unlinked : i.nlink = 0) : SlotOk false ⟨some i, [], [], []⟩
  | live (i : Inode) (linked : Linked i) (named : i.name ≠ "") :
      SlotOk false ⟨some i, [i.name], [i.size], [i.lastModified]⟩
  | root (i : Inode) (linked : i.nlink ≠ 0) (isDir : i.isDir = true) (names : List Name)
      (sizes : List UInt32) (times : List Nat) : SlotOk true ⟨some i, names, sizes, times⟩

/-- No name leads to the root. -/
def Rooted (v : Vol) : Prop := ∀ d n, isDot n = false → (v.dirs d).find n ≠ some v.root

def AllOk (v : Vol) : Prop := ∀ ino, SlotOk (decide (ino = v.root)) (slot v ino)

structure Good (v : Vol) : Prop where
  slots : AllOk v
  rooted : Rooted v

theorem stored_of_seconds {i : Inode} (seconds : i.lastModified / 2 ^ 16 = i.mtime)
    (fits : i.lastModified < 2 ^ 64) : i.stored = i.lastModified := by
  rw [Inode.stored, if_pos seconds]
  omega

theorem Timed.write {i : Inode} (timed : Timed i) : i.write = i := by
  rw [Inode.write, timed.stored]

theorem timed_touch (i : Inode) (m : Moment) : Timed (i.touch m) := by
  have now := m.now_lt
  have sub := m.sub_lt
  have fits : (i.touch m).lastModified < 2 ^ 64 := by
    simp only [touch]
    omega
  constructor
  · apply stored_of_seconds _ fits
    simp only [touch]
    omega
  · exact fits

open Slot

/-- The slot of `ino` is changed by `f`, and nothing else is. -/
structure Changes (v w : Vol) (ino : Ino) (f : Slot → Slot) : Prop where
  root : w.root = v.root
  slots : ∀ x, slot w x = if x = ino then f (slot v x) else slot v x

section Changes

variable {u v w : Vol} {ino : Ino} {f g : Slot → Slot}

theorem Changes.allOk (changes : Changes v w ino f) (ok : AllOk v)
    (here : SlotOk (decide (ino = v.root)) (f (slot v ino))) : AllOk w := by
  intro x
  rw [changes.root, changes.slots]
  split
  · rename_i same
    subst same
    exact here
  · exact ok x

theorem Changes.trans (first : Changes u v ino f) (next : Changes v w ino g) :
    Changes u w ino (g ∘ f) := by
  constructor
  · rw [next.root, first.root]
  · intro x
    rw [next.slots, first.slots]
    split <;> rfl

variable (v ino)

theorem put_changes (i : Inode) :
    Changes v (v.put ino i) ino fun s => { s with inode := some i } := by
  constructor
  · rfl
  intro x
  by_cases same : x = ino
  · subst same
    simp [slot, put]
  · simp [slot, put, same]

theorem ifree_changes : Changes v (v.ifree ino) ino fun s => { s with inode := none } := by
  constructor
  · rfl
  intro x
  by_cases same : x = ino
  · subst same
    simp [slot, ifree]
  · simp [slot, ifree, same]

theorem indexAdd_changes (i : Inode) (name : Name) :
    Changes v (v.indexAdd ino i name) ino fun s =>
      ⟨s.inode, name :: s.names, i.size :: s.sizes, i.lastModified :: s.times⟩ := by
  constructor
  · rfl
  intro x
  by_cases same : x = ino
  · subst same
    simp [slot, indexAdd, keysOf_cons]
  · simp [slot, indexAdd, keysOf_cons, same]

theorem indexRemove_changes (i : Inode) (name : Name) :
    Changes v (v.indexRemove ino i name) ino fun s =>
      ⟨s.inode, s.names.erase name, s.sizes.erase i.size, s.times.erase i.lastModified⟩ := by
  constructor
  · rfl
  intro x
  by_cases same : x = ino
  · subst same
    simp [slot, indexRemove, keysOf_erase]
  · simp [slot, indexRemove, keysOf_erase, same]

/-- `Vol.resize`, for one slot. -/
def Slot.resized (size : UInt32) (m : Moment) (s : Slot) : Slot :=
  match s.inode with
  | none => s
  | some i =>
    let i' := Inode.touch { i with size := size } m
    if i.nlink = 0 then { s with inode := some i' }
    else ⟨some i', s.names, size :: s.sizes.erase i.size,
      i'.lastModified :: s.times.erase i.lastModified⟩

theorem resize_changes (size : UInt32) (m : Moment) :
    Changes v (v.resize ino size m) ino (resized size m) := by
  cases here : v.inodes ino with
  | none =>
    have same : v.resize ino size m = v := by rw [resize, here]
    rw [same]
    constructor
    · rfl
    intro x
    split
    · rename_i own
      subst own
      simp [resized, slot, here]
    · rfl
  | some i =>
    have written := (timed_touch { i with size := size } m).write
    constructor
    · simp only [resize, here, Vol.indexResize]
      split <;> rfl
    · intro x
      simp only [resize, here, Vol.indexResize, written]
      by_cases same : x = ino
      · subst same
        by_cases unlinked : i.nlink = 0
        · simp [resized, slot, here, unlinked, touch, put]
        · simp [resized, slot, here, unlinked, touch, put, keysOf_cons, keysOf_erase]
      · by_cases unlinked : i.nlink = 0
        · simp [slot, same, unlinked, touch, put]
        · simp [slot, same, unlinked, touch, put, keysOf_cons, keysOf_erase]

end Changes

/-! ### Slots that stay as they should be -/

section Ok

variable {atRoot : Bool} {s : Slot} {i : Inode} {i' : Inode}

theorem SlotOk.resized (ok : SlotOk atRoot s) (size : UInt32) (m : Moment) :
    SlotOk atRoot (s.resized size m) := by
  cases ok with
  | free => exact .free
  | dead i unlinked =>
    simp only [Slot.resized, if_pos unlinked]
    exact .dead _ unlinked
  | live i linked named =>
    simp only [Slot.resized, if_neg linked.linked, List.erase_cons_head]
    exact .live (touch { i with size := size } m) ⟨linked.linked, linked.few, timed_touch _ m⟩ named
  | root i linked isDir names sizes times =>
    simp only [Slot.resized, if_neg linked]
    exact .root (touch { i with size := size } m) linked isDir _ _ _

/-- Fields that the indices do not show may change, and times that agree with the stored one. -/
theorem SlotOk.update (ok : SlotOk atRoot s) (here : s.inode = some i)
    (kind : i'.kind = i.kind) (name : i'.name = i.name) (size : i'.size = i.size)
    (nlink : i'.nlink = 0 ↔ i.nlink = 0)
    (linked : atRoot = false → Linked i → Linked i' ∧ i'.lastModified = i.lastModified) :
    SlotOk atRoot { s with inode := some i' } := by
  cases ok with
  | free => cases here
  | dead j unlinked =>
    cases here
    exact .dead _ (nlink.mpr unlinked)
  | live j linkedJ named =>
    cases here
    obtain ⟨linked', time⟩ := linked rfl linkedJ
    have ok := SlotOk.live i' linked' (by rwa [name])
    rwa [name, size, time] at ok
  | root j linkedJ isDir =>
    cases here
    exact .root i' (fun unlinked => linkedJ (nlink.mp unlinked))
      (by rw [Inode.isDir, kind]; exact isDir) _ _ _

/-- A free block becomes an inode with a name. -/
theorem SlotOk.entered (ok : SlotOk false s) (unused : s.inode = none) (linked : Linked i)
    (named : i.name ≠ "") :
    SlotOk false ⟨some i, i.name :: s.names, i.size :: s.sizes, i.lastModified :: s.times⟩ := by
  cases ok with
  | free => exact .live i linked named
  | dead | live => cases unused

/-- An inode that loses its last link is taken out of the indices. -/
theorem SlotOk.removed (ok : SlotOk false s) (here : s.inode = some i)
    (unlinked : i'.nlink = 0) {name : Name} (own : i.nlink ≠ 0 → name = i.name) :
    SlotOk false ⟨some i', s.names.erase name, s.sizes.erase i.size,
      s.times.erase i.lastModified⟩ := by
  cases ok with
  | free => cases here
  | dead j _ =>
    exact .dead i' unlinked
  | live j linked _ =>
    cases here
    rw [own linked.linked]
    simp only [List.erase_cons_head]
    exact .dead i' unlinked

end Ok

/-! ## The calls -/

/-- No name that `w` has and `v` has not leads to the root. -/
theorem Rooted.adds {v w : Vol} (rooted : Rooted v) (root : w.root = v.root) {dirs : Rename.Volume}
    (same : w.dirs = dirs) {dir ino : Ino} {name : Name} (adds : AddsOnly v.dirs dirs dir name ino)
    (other : ino ≠ v.root) : Rooted w := by
  intro d n plain found
  rw [root, same] at found
  rcases adds d n _ found with old | ⟨-, -, same⟩
  · exact rooted d n plain old
  · exact other same.symm

section Parts

variable {v : Vol} {ino : Ino} {x : Ino}

theorem AllOk.resize (ok : AllOk v) (size : UInt32) (m : Moment) :
    AllOk (v.resize ino size m) :=
  (resize_changes v ino size m).allOk ok ((ok ino).resized size m)

variable (ok : AllOk v) {i i' : Inode}

include ok

theorem AllOk.settle : AllOk (v.settle ino) := by
  unfold Vol.settle
  cases here : v.inodes ino with
  | none => exact ok
  | some i =>
    simp only
    split
    · rename_i gone
      apply (ifree_changes v ino).allOk ok
      have before := ok ino
      generalize decide (ino = v.root) = atRoot at before ⊢
      generalize whole : slot v ino = s at before ⊢
      have inode : s.inode = some i := by rw [← whole, slot, here]
      cases before with
      | free => exact .free
      | dead _ _ => exact .free
      | live j linked _ =>
        cases inode
        exact absurd gone.2 linked.linked
      | root j linked _ =>
        cases inode
        exact absurd gone.2 linked
    · exact ok

/-- The root is a directory in use. -/
theorem AllOk.root : ∃ i, v.inodes v.root = some i ∧ i.isDir = true ∧ i.nlink ≠ 0 := by
  have here := ok v.root
  rw [decide_eq_true rfl] at here
  generalize whole : slot v v.root = s at here
  cases here with
  | root i linked isDir =>
    simp only [slot, mk.injEq] at whole
    exact ⟨i, whole.1, isDir, linked⟩

/-- The slot of an inode in use. -/
theorem AllOk.live (here : v.inodes ino = some i) (inUse : i.nlink ≠ 0) (other : ino ≠ v.root) :
    Linked i ∧ slot v ino = ⟨some i, [i.name], [i.size], [i.lastModified]⟩ := by
  have before := ok ino
  rw [decide_eq_false other] at before
  generalize whole : slot v ino = s at before
  have inode : s.inode = some i := by rw [← whole, slot, here]
  cases before with
  | free => cases inode
  | dead j unlinked =>
    cases inode
    exact absurd unlinked inUse
  | live j linked _ =>
    cases inode
    exact ⟨linked, rfl⟩

theorem AllOk.free_ne_root (free : v.inodes ino = none) : ino ≠ v.root := by
  rintro rfl
  obtain ⟨i, here, -⟩ := ok.root
  rw [free] at here
  cases here

/-- The index entries do not depend on the directories. -/
theorem AllOk.withDirs (dirs : Rename.Volume) : AllOk { v with dirs := dirs } := ok

theorem AllOk.setDir (dir : Ino) (d : Dir) : AllOk (v.setDir dir d) := ok

theorem AllOk.enter (free : v.inodes ino = none) (linked : Linked i)
    (named : i.name ≠ "") : AllOk ((v.put ino i).indexAdd ino i i.name) := by
  have other := ok.free_ne_root free
  have before := ok ino
  have unused := free
  rw [decide_eq_false other] at before
  apply ((put_changes v ino i).trans (indexAdd_changes _ ino i i.name)).allOk ok
  rw [decide_eq_false other]
  exact before.entered unused linked named

/-- An inode loses its last link and its entries. -/
theorem AllOk.leave (other : ino ≠ v.root) (here : v.inodes ino = some i)
    (unlinked : i'.nlink = 0) {name : Name} (own : i.nlink ≠ 0 → name = i.name) :
    AllOk ((v.indexRemove ino i name).put ino i') := by
  have before := ok ino
  rw [decide_eq_false other] at before
  apply ((indexRemove_changes v ino i name).trans (put_changes _ ino i')).allOk ok
  rw [decide_eq_false other]
  exact before.removed here unlinked own

/-- An inode changes in what the indices do not show. -/
theorem AllOk.update (here : v.inodes ino = some i) (kind : i'.kind = i.kind)
    (name : i'.name = i.name) (size : i'.size = i.size) (nlink : i'.nlink = 0 ↔ i.nlink = 0)
    (linked : ino ≠ v.root → Linked i → Linked i' ∧ i'.lastModified = i.lastModified) :
    AllOk (v.put ino i') :=
  (put_changes v ino i').allOk ok ((ok ino).update here kind name size nlink
    fun other => linked (of_decide_eq_false other))

/-- The record's name is the one an inode in use is entered under. -/
theorem AllOk.leaveOwn (other : ino ≠ v.root) (here : v.inodes ino = some i)
    (unlinked : i'.nlink = 0) :
    AllOk ((v.indexRemoveOwn ino i).put ino i') := by
  unfold Vol.indexRemoveOwn
  split
  · rename_i nameless
    apply (put_changes v ino i').allOk ok
    have before := ok ino
    rw [decide_eq_false other] at before ⊢
    generalize whole : slot v ino = s at before ⊢
    have inode : s.inode = some i := by rw [← whole, slot, here]
    cases before with
    | free => cases inode
    | dead _ _ => exact .dead i' unlinked
    | live j _ named =>
      cases inode
      exact absurd nameless named
  · exact ok.leave other here unlinked fun _ => rfl

end Parts

theorem Good.file_ne_root {v : Vol} {ino : Ino} {i : Inode} (good : Good v)
    (here : v.inodes ino = some i) (noDir : i.isDir = false) : ino ≠ v.root := by
  rintro rfl
  obtain ⟨j, root, isDir, -⟩ := good.slots.root
  rw [here] at root
  cases root
  rw [noDir] at isDir
  cases isDir

section New

variable {v : Vol} {m : Making}

theorem linked_fresh (kind : Kind) (nlink : Nat) (some : nlink ≠ 0) (few : nlink ≤ linkMax)
    (size : UInt32) (count : Nat) (time : Moment) (name : Name) :
    Linked ((freshInode kind nlink size count time).setName name) := by
  have timed : Timed { freshInode kind nlink size count time with name := name } :=
    timed_touch ⟨kind, nlink, name, size, 0, 0, count⟩ time
  rw [Inode.setName, timed.write]
  exact ⟨some, few, timed⟩

theorem makeNode_good (good : Good v) (free : v.inodes m.ino = none) {kind : Kind}
    {size : UInt32} {count : Nat}
    (done : (makeNode v m kind size count).1 = none) : Good (makeNode v m kind size count).2 := by
  obtain ⟨-, fine, result⟩ := makeNode_done done
  rw [result]
  constructor
  · apply AllOk.resize
    exact (good.slots.setDir m.dir _).enter free
      (linked_fresh kind 1 (by decide) (by decide) size count m.time m.name)
      (btreeInsert_named fine)
  · exact good.rooted.adds (resize_root _ _ _ _) (resize_dirs _ _ _ _)
      (insert_adds m.insert v.dirs m.dir m.name m.ino) (good.slots.free_ne_root free)

theorem mkdir_good (good : Good v) (free : v.inodes m.ino = none)
    (done : (mkdir v m).1 = none) : Good (mkdir v m).2 := by
  obtain ⟨-, fine, result⟩ := mkdir_done done
  have linked := linked_fresh .directory 2 (by decide) (by decide) 2048 0 m.time m.name
  have rooted : Rooted ((v.put m.ino (freshInode .directory 2 2048 0 m.time)).setDir m.ino
      (newDir m.ino m.dir)) := by
    intro d n plain found
    by_cases here : d = m.ino
    · subst here
      simp [setDir, Rename.Volume.set, newDir_plain _ _ plain] at found
    · simp only [setDir, Rename.Volume.set, Function.update_of_ne here] at found
      exact good.rooted d n plain found
  rw [result]
  constructor
  · apply AllOk.resize
    rw [setDir_put, setDir_put, put_put]
    exact ((good.slots.setDir _ _).setDir _ _).enter free linked (btreeInsert_named fine)
  · exact rooted.adds (resize_root _ _ _ _) (resize_dirs _ _ _ _)
      (insert_adds m.insert _ m.dir m.name m.ino) (good.slots.free_ne_root free)

theorem link_good (good : Good v) {ino : Ino} {i : Inode} (here : v.inodes ino = some i)
    (linked : i.nlink ≠ 0) (done : (link v m ino i).1 = none) : Good (link v m ino i).2 := by
  obtain ⟨noDir, room, -, -, result⟩ := link_done done
  have other := good.file_ne_root here noDir
  obtain ⟨fine, -⟩ := good.slots.live here linked other
  have few := fine.few
  have next := Inode.addLink_nlink few
  rw [result]
  constructor
  · apply AllOk.resize
    refine (good.slots.setDir m.dir _).update here rfl rfl rfl ?_ ?_
    · simp [next, linked]
    · intro _ _
      exact ⟨⟨by omega, by omega, fine.timed.stored, fine.timed.fits⟩, rfl⟩
  · exact good.rooted.adds (resize_root _ _ _ _) (resize_dirs _ _ _ _)
      (insert_adds m.insert v.dirs m.dir m.name ino) other

end New

section Remove

variable {v : Vol} {dir ino : Ino} {name : Name} {i : Inode} {failure : Option Errno} {t : Moment}

variable (good : Good v)

include good

theorem Good.settle : Good (v.settle ino) := by
  refine ⟨good.slots.settle, ?_⟩
  intro d n plain found
  rw [settle_root] at found
  exact good.rooted d n plain (settle_adds v ino d n _ found)

/-- What `settle` and a touched directory leave. -/
theorem Good.finish {w : Vol} (ok : AllOk w) (root : w.root = v.root)
    (fewer : AddsNothing v.dirs w.dirs) : Good ((w.touchDir dir t).settle ino) := by
  apply Good.settle
  refine ⟨ok.resize _ t, ?_⟩
  intro d n plain found
  rw [Vol.touchDir, resize_root, resize_dirs, root] at found
  exact good.rooted d n plain (fewer d n _ found)

theorem unlink_good (here : v.inodes ino = some i) (last : i.nlink = 1)
    (own : name = i.name) (done : (unlink v dir name ino i failure t).1 = none) :
    Good (unlink v dir name ino i failure t).2 := by
  obtain ⟨noDir, -, result⟩ := unlink_done done
  have unlinked : i.dropLink.nlink = 0 := by
    rw [Inode.dropLink_nlink (by omega) (by rw [last]; decide), last]
  have other := good.file_ne_root here noDir
  rw [result]
  refine good.finish ?_ rfl (delete_adds failure v.dirs dir name)
  exact (good.slots.setDir dir _).leave other here unlinked fun _ => own

theorem rmdir_good (here : v.inodes ino = some i) {unread : Nat}
    (done : (rmdir v dir ino i failure unread t).1 = none) :
    Good (rmdir v dir ino i failure unread t).2 := by
  obtain ⟨-, other, -, -, -, result⟩ := rmdir_done done
  rw [result]
  refine good.finish ?_ (indexRemoveOwn_root _ _ _) ?_
  · exact (good.slots.setDir dir _).leaveOwn other here rfl
  · show AddsNothing v.dirs (Vol.indexRemoveOwn _ ino i).dirs
    rw [indexRemoveOwn_dirs]
    exact deleteIno_adds failure v.dirs dir ino

end Remove

section Rename

variable {v : Vol} {r : Renaming} {ino : Ino} {i : Inode} {j : Inode}

/-- The renamed inode is entered under its new name. -/
theorem AllOk.renamed (ok : AllOk v) (other : ino ≠ v.root) (here : v.inodes ino = some i)
    (linked : i.nlink ≠ 0) {oldname newname : Name} (own : i.name = oldname) (named : newname ≠ "") :
    AllOk ((((v.put ino (i.setName newname)).indexRemove ino (i.setName newname) oldname).indexAdd ino
      (i.setName newname) newname)) := by
  obtain ⟨fine, live⟩ := ok.live here linked other
  apply (((put_changes v ino _).trans (indexRemove_changes _ ino _ _)).trans
    (indexAdd_changes _ ino _ _)).allOk ok
  have written : i.setName newname = { i with name := newname } :=
    Timed.write ⟨fine.timed.stored, fine.timed.fits⟩
  rw [decide_eq_false other, live]
  simp only [Function.comp, own, written, List.erase_cons_head]
  exact .live { i with name := newname } ⟨linked, fine.few, fine.timed.stored, fine.timed.fits⟩ named

theorem moveInode_good (good : Good v) (here : v.inodes ino = some i) (linked : i.nlink ≠ 0)
    (other : ino ≠ v.root) (own : i.name = r.oldpath)
    (done : (moveInode v r ino i).1 = none) : Good (moveInode v r ino i).2 := by
  obtain ⟨moved, result⟩ := moveInode_done done
  have named : r.newpath ≠ "" := by
    rcases moveEntry_cases (r.call ino none) r.env v.dirs with
      ⟨failed, -⟩ | ⟨-, -, inserted, -⟩ | ⟨failed, -⟩
    · exact absurd moved failed
    · exact btreeInsert_named inserted
    · exact absurd moved failed
  have adds := moveEntry_adds fun failed => absurd moved failed
  have renamed := (good.slots.renamed other here linked own named).withDirs
    ((Rename.moveEntry (r.call ino none) r.env v.dirs).final v.dirs)
  rw [result]
  split
  · exact ⟨renamed.resize _ _,
      good.rooted.adds (resize_root _ _ _ _) (resize_dirs _ _ _ _) adds other⟩
  · refine ⟨AllOk.resize (renamed.resize _ _) _ _, ?_⟩
    exact good.rooted.adds ((resize_root _ _ _ _).trans (resize_root _ _ _ _))
      ((resize_dirs _ _ _ _).trans (resize_dirs _ _ _ _)) adds other

/-- The target loses its link and its entries. -/
theorem unlinkTarget_good (good : Good v) (t : Rename.Target)
    (here : v.inodes t.ino = some j) (other : t.ino ≠ v.root)
    (last : t.isDir = false → j.nlink ≤ 1) : Good (unlinkTarget v t) := by
  have unlinked : (if t.isDir = true then 0 else j.nlink - 1) = 0 := by
    split
    · rfl
    · rename_i file
      exact Nat.sub_eq_zero_of_le (last (by simpa using file))
  have result : unlinkTarget v t = (v.indexRemoveOwn t.ino j).put t.ino
      { j with nlink := if t.isDir then 0 else j.nlink - 1 } := by
    rw [unlinkTarget, here]
  rw [result]
  refine ⟨good.slots.leaveOwn other here unlinked, ?_⟩
  intro d n plain found
  have dirs : (v.indexRemoveOwn t.ino j).dirs = v.dirs := indexRemoveOwn_dirs _ _ _
  have root : (v.indexRemoveOwn t.ino j).root = v.root := indexRemoveOwn_root _ _ _
  simp only [put, dirs, root] at found
  exact good.rooted d n plain found

/-- A rename that the indices survive: it moves the name that the record has, and what it
replaces has no other name. A rename of an inode onto itself does nothing. -/
def SafeRename (v : Vol) (r : Renaming) : Prop :=
  ∀ found ∈ v.lookup r.dirOld r.oldpath,
    (v.lookup r.dirNew r.newpath).map (·.1) ≠ some found.1 →
      found.2.nlink ≠ 0 ∧ found.2.name = r.oldpath ∧
        ∀ target ∈ v.lookup r.dirNew r.newpath, target.2.isDir = false → target.2.nlink ≤ 1

instance (v : Vol) (r : Renaming) : Decidable (SafeRename v r) := by
  unfold SafeRename
  infer_instance

theorem rename_good (good : Good v) (safe : SafeRename v r) {w : Vol}
    (done : sysRename v r = some (none, w)) : Good w := by
  rcases sysRename_cases done with rfl | ⟨ino, i, found, plainOld, plainNew, -, -, asked⟩
  · exact good
  obtain ⟨entry, here⟩ := lookup_eq_some found
  have other : ino ≠ v.root := by
    rintro rfl
    exact good.rooted _ _ plainOld entry
  rcases asked with ⟨absent, renamed⟩ | ⟨t, j, target, different, -, renamed⟩
  · obtain ⟨linked, own, -⟩ := safe (ino, i) found (by simp [absent])
    obtain ⟨moved, result⟩ := agfsRename_none_done (congrArg Prod.fst renamed)
    rw [renamed] at result
    simp only at result
    rw [result]
    exact moveInode_good good here linked other own moved
  · obtain ⟨linked, own, last⟩ := safe (ino, i) found (by simpa [target] using Ne.symm different)
    obtain ⟨entryT, hereT⟩ := lookup_eq_some target
    have otherT : t ≠ v.root := by
      rintro rfl
      exact good.rooted _ _ plainNew entryT
    obtain ⟨-, -, moved, result⟩ := agfsRename_done (congrArg Prod.fst renamed)
    rw [renamed] at result
    simp only at result
    have cleared : Good (v.setDir r.dirNew (r.deleted v ⟨t, j.isDir⟩).2) := by
      refine ⟨good.slots.setDir _ _, ?_⟩
      intro d n plain again
      exact good.rooted d n plain (deleteTarget_adds r.env v.dirs _ _ _ d n _ again)
    have unlinked := unlinkTarget_good cleared ⟨t, j.isDir⟩ hereT otherT
      fun file => last (t, j) target file
    have root := unlinkTarget_root (v.setDir r.dirNew (r.deleted v ⟨t, j.isDir⟩).2) ⟨t, j.isDir⟩
    have inodes := unlinkTarget_inodes (t := ⟨t, j.isDir⟩)
      (v := v.setDir r.dirNew (r.deleted v ⟨t, j.isDir⟩).2) hereT
    have all := moveInode_good unlinked
      (by rw [inodes, Function.update_of_ne different]; exact here) linked
      (by rw [root]; exact other) own moved
    rw [result]
    exact all.settle

end Rename

/-! ## Runs -/

/-- The calls that the indices survive. -/
def SafeLabel (v : Vol) : Label → Prop
  | .link dirOld oldname _ => ∀ found ∈ v.lookup dirOld oldname, found.2.nlink ≠ 0
  | .unlink dir name _ _ =>
    ∀ found ∈ v.lookup dir name, found.2.isDir = false → found.2.nlink = 1 ∧ found.2.name = name
  | .rename r => SafeRename v r
  | .utimensat ino mtime =>
    ∀ i ∈ v.inodes ino, i.nlink ≠ 0 → ino ≠ v.root →
      Inode.stored { i with mtime := mtime } = i.lastModified
  | _ => True

instance (v : Vol) (l : Label) : Decidable (SafeLabel v l) := by
  cases l <;> unfold SafeLabel <;> infer_instance

/-- An inode that changes in what the indices do not show. -/
theorem Good.put {v : Vol} (good : Good v) {ino : Ino} {i i' : Inode} (here : v.inodes ino = some i)
    (kind : i'.kind = i.kind) (name : i'.name = i.name) (size : i'.size = i.size)
    (nlink : i'.nlink = 0 ↔ i.nlink = 0)
    (linked : ino ≠ v.root → Linked i → Linked i' ∧ i'.lastModified = i.lastModified) :
    Good (v.put ino i') :=
  ⟨good.slots.update here kind name size nlink linked, good.rooted⟩

theorem call_good {v w : Vol} {l : Label} (good : Good v) (safe : SafeLabel v l)
    (called : call v l = some (none, w)) : Good w := by
  cases l with
  | create m =>
    obtain ⟨-, free, done, rfl⟩ := Making.of_done called
    exact makeNode_good good free done
  | mknod kind m =>
    obtain ⟨-, free, done, rfl⟩ := Making.of_done called
    cases kind with
    | regular | special => exact makeNode_good good free done
    | directory | symlink => cases done
  | symlink target data undo m =>
    obtain ⟨-, free, done, rfl⟩ := Making.of_done called
    cases data with
    | none => exact makeNode_good good free done
    | some e =>
      simp only [symlink] at done
      split at done
      · cases done
      · split at done <;> cases done
  | mkdir m =>
    obtain ⟨-, free, done, rfl⟩ := Making.of_done called
    exact mkdir_good good free done
  | link dirOld oldname m =>
    simp only [call] at called
    split at called
    · obtain ⟨⟨ino, i⟩, found, result⟩ := map_eq_some_iff.mp called
      have linked := link_good good (lookup_eq_some found).2 (safe (ino, i) found)
        (congrArg Prod.fst result)
      rwa [result] at linked
    · cases called
  | unlink dir name failure time =>
    obtain ⟨⟨ino, i⟩, found, result⟩ := map_eq_some_iff.mp called
    have done := congrArg Prod.fst result
    obtain ⟨last, own⟩ := safe (ino, i) found (unlink_done done).1
    have unlinked := unlink_good good (lookup_eq_some found).2 last own.symm done
    rwa [result] at unlinked
  | rmdir dir name failure unread time =>
    obtain ⟨⟨ino, i⟩, found, result⟩ := map_eq_some_iff.mp called
    have removed := rmdir_good good (lookup_eq_some found).2 (congrArg Prod.fst result)
    rwa [result] at removed
  | rename r =>
    simp only [call] at called
    split at called
    · exact rename_good good safe called
    · cases called
  | write ino off n time | truncate ino length time =>
    obtain ⟨i, here, result⟩ := map_eq_some_iff.mp called
    cases result
    exact ⟨good.slots.resize _ time, by
      intro d n plain
      rw [resize_dirs, resize_root]
      exact good.rooted d n plain⟩
  | utimensat ino mtime =>
    obtain ⟨i, here, result⟩ := map_eq_some_iff.mp called
    cases result
    refine good.put here rfl rfl rfl .rfl ?_
    intro other linked
    exact ⟨⟨linked.linked, linked.few, safe i here linked.linked other, linked.timed.fits⟩, rfl⟩
  | openFile dir name =>
    obtain ⟨⟨ino, i⟩, found, result⟩ := map_eq_some_iff.mp called
    cases result
    refine good.put (lookup_eq_some found).2 rfl rfl rfl .rfl ?_
    intro _ linked
    exact ⟨⟨linked.linked, linked.few, linked.timed.stored, linked.timed.fits⟩, rfl⟩
  | closeFile ino =>
    obtain ⟨i, here, result⟩ := Option.bind_eq_some_iff.mp called
    split at result
    · cases result
    cases result
    apply Good.settle
    refine good.put here rfl rfl rfl .rfl ?_
    intro _ linked
    exact ⟨⟨linked.linked, linked.few, linked.timed.stored, linked.timed.fits⟩, rfl⟩
  | flush ino =>
    obtain ⟨i, here, result⟩ := map_eq_some_iff.mp called
    cases result
    refine good.put here rfl rfl rfl .rfl ?_
    intro _ linked
    rw [linked.timed.write]
    exact ⟨linked, rfl⟩
  | evict ino =>
    obtain ⟨i, here, result⟩ := Option.bind_eq_some_iff.mp called
    split at result
    · rename_i idle
      cases result
      have links : i.reread.nlink ≠ 0 ∧ i.reread.nlink ≤ linkMax := by
        simp only [Inode.reread]
        split <;> decide
      refine good.put here rfl rfl rfl (by simp [links.1, idle.2]) ?_
      intro _ linked
      exact ⟨⟨links.1, links.2, stored_of_seconds rfl linked.timed.fits, linked.timed.fits⟩, rfl⟩
    · cases result

end Argentum.Agfs.Indices
