/-
# Agfs.LinkCount — an inode is freed when its last name is gone

`iput` frees an inode whose link count is zero. There has to be at least one link for each
name that directories have for the inode (`Counted`), or a name outlives its inode; `.` and
`..` are not names in this sense.

`no_dangling_entry` says that along every run, whatever fails on the way, no name leads to a
block that has been freed, if four things are kept apart. An inode with two links does not
leave the cache: there is no link count on disk and `agfs_read_inode` starts again from one
(`linked_file_freed`). An insertion that fails has not left its name behind. No `.` or
`..` of the parent leads to what a removal by inode takes away. And `..` of a directory that was
itself removed is not unlinked, when its block has become a file.
-/
import Mathlib
import Argentum.Agfs.Namespace

namespace Argentum.Agfs.LinkCount

open Lib.Machine Agfs.Namespace Rename Vol Inode Dir
open Option (map_eq_some_iff any_eq_true)
open Agfs.Rename (Target)

/-! ## Names and links -/

/-- The names of an inode, each with its directory. -/
def names (dirs : Rename.Volume) (ino : Ino) : Set (Ino × Name) :=
  { p | isDot p.2 = false ∧ (dirs p.1).find p.2 = some ino }

/-- The names that an inode may have. A directory has one, whatever its count says. -/
def allowance : Option (Bool × Nat) → Nat
  | none => 0
  | some (true, nlink) => min nlink 1
  | some (false, nlink) => nlink

/-- There is a link for every name. -/
structure Counted (v : Vol) : Prop where
  named : ∀ ino, (names v.dirs ino).encard ≤ allowance (v.shape ino)
  few : ∀ ino nlink, v.shape ino = some (false, nlink) → nlink ≤ linkMax

/-- Every name leads to an inode. -/
def NoDangling (v : Vol) : Prop :=
  ∀ dir name ino, isDot name = false → (v.dirs dir).find name = some ino → v.inodes ino ≠ none

theorem Counted.noDangling {v : Vol} (counted : Counted v) : NoDangling v := by
  intro dir name ino plain found free
  have unnamed := counted.named ino
  rw [shape, free] at unnamed
  have empty : names v.dirs ino = ∅ := by simpa [allowance] using unnamed
  have member : (dir, name) ∈ names v.dirs ino := ⟨plain, found⟩
  rw [empty] at member
  exact member

section Names

variable {v w : Rename.Volume} {dir ino x : Ino} {name : Name}

theorem names_of_addsNothing (nothing : AddsNothing v w) (x : Ino) : names w x ⊆ names v x := by
  rintro ⟨d, n⟩ ⟨plain, found⟩
  exact ⟨plain, nothing d n x found⟩

theorem names_of_adds_other (adds : AddsOnly v w dir name ino) (other : x ≠ ino) :
    names w x ⊆ names v x := by
  rintro ⟨d, n⟩ ⟨plain, found⟩
  rcases adds d n x found with old | ⟨-, -, same⟩
  · exact ⟨plain, old⟩
  · exact absurd same other

theorem names_of_adds (adds : AddsOnly v w dir name ino) (x : Ino) :
    names w x ⊆ insert (dir, name) (names v x) := by
  rintro ⟨d, n⟩ ⟨plain, found⟩
  rcases adds d n x found with old | ⟨here, this, -⟩
  · exact .inr ⟨plain, old⟩
  · exact .inl (Prod.ext here this)

/-- A name that is no longer found is not among the names. -/
theorem names_of_removes (nothing : AddsNothing v w) (gone : (w dir).find name = none) (x : Ino) :
    names w x ⊆ names v x \ {(dir, name)} := by
  rintro ⟨d, n⟩ ⟨plain, found⟩
  refine ⟨⟨plain, nothing d n x found⟩, ?_⟩
  rintro ⟨rfl, rfl⟩
  rw [gone] at found
  cases found

end Names

section Cardinals

variable {α : Type} {s t : Set α} {a b : α} {k : Nat}

theorem encard_insert_le (less : t ⊆ insert a s) (bound : s.encard ≤ k) :
    t.encard ≤ ((k + 1 : Nat) : ℕ∞) :=
  calc t.encard ≤ (insert a s).encard := Set.encard_le_encard less
    _ ≤ s.encard + 1 := Set.encard_insert_le s a
    _ ≤ ((k + 1 : Nat) : ℕ∞) := by
      push_cast
      gcongr

theorem encard_remove_le (member : a ∈ s) (less : t ⊆ s \ {a}) (bound : s.encard ≤ k) :
    t.encard ≤ ((k - 1 : Nat) : ℕ∞) :=
  calc t.encard ≤ (s \ {a}).encard := Set.encard_le_encard less
    _ = s.encard - 1 := Set.encard_sdiff_singleton_of_mem member
    _ ≤ ((k - 1 : Nat) : ℕ∞) := by
      push_cast
      gcongr

theorem encard_swap_le (member : b ∈ s) (less : t ⊆ insert a (s \ {b})) : t.encard ≤ s.encard :=
  calc t.encard ≤ (insert a (s \ {b})).encard := Set.encard_le_encard less
    _ ≤ (s \ {b}).encard + 1 := Set.encard_insert_le _ a
    _ = s.encard := Set.encard_sdiff_singleton_add_one member

theorem one_le_of_encard_le (member : a ∈ s) (bound : s.encard ≤ k) : 1 ≤ k := by
  have some : s.encard ≠ 0 := by
    rw [Set.encard_ne_zero]
    exact ⟨a, member⟩
  have lower := (Order.one_le_iff_ne_zero.mpr some).trans bound
  exact_mod_cast lower

end Cardinals

/-! ## What keeps the count -/

section Keeps

variable {v w : Vol} {ino : Ino}

variable (counted : Counted v)

include counted

/-- Only `ino` gets names or links. -/
theorem Counted.change (ino : Ino)
    (others : ∀ x, x ≠ ino → w.shape x = v.shape x ∧ names w.dirs x ⊆ names v.dirs x)
    (own : (names w.dirs ino).encard ≤ allowance (w.shape ino))
    (few : ∀ nlink, w.shape ino = some (false, nlink) → nlink ≤ linkMax) : Counted w := by
  constructor
  · intro x
    by_cases same : x = ino
    · exact same ▸ own
    · obtain ⟨shape, less⟩ := others x same
      rw [shape]
      exact (Set.encard_le_encard less).trans (counted.named x)
  · intro x nlink shape
    by_cases same : x = ino
    · exact few nlink (same ▸ shape)
    · exact counted.few x nlink ((others x same).1 ▸ shape)

theorem Counted.fewer (shape : ∀ x, w.shape x = v.shape x) (nothing : AddsNothing v.dirs w.dirs) :
    Counted w := by
  constructor
  · intro x
    rw [shape x]
    exact (Set.encard_le_encard (names_of_addsNothing nothing x)).trans (counted.named x)
  · intro x nlink here
    exact counted.few x nlink (shape x ▸ here)

theorem Counted.resize (size : UInt32) (m : Moment) : Counted (v.resize ino size m) :=
  counted.fewer (resize_shape v ino size m) fun _ _ _ found => resize_dirs v ino size m ▸ found

theorem Counted.put {i i' : Inode} (here : v.inodes ino = some i) (kind : i'.kind = i.kind)
    (nlink : i'.nlink = i.nlink) : Counted (v.put ino i') := by
  refine counted.fewer ?_ fun _ _ _ found => found
  intro x
  rw [shape_put]
  split
  · rename_i same
    subst same
    simp [shape, here, Inode.isDir, kind, nlink]
  · rfl

/-- What is freed has no links, and so no names. -/
theorem Counted.settle (ino : Ino) : Counted (v.settle ino) := by
  have nothing := settle_adds v ino
  unfold Vol.settle at nothing ⊢
  split
  · exact counted
  rename_i i here
  rw [here] at nothing
  simp only at nothing
  split
  · rename_i idle
    rw [if_pos idle] at nothing
    have unnamed : allowance (v.shape ino) = 0 := by
      cases isDir : i.isDir <;> simp [Vol.shape, here, isDir, idle.2, allowance]
    apply counted.change ino
    · intro x other
      exact ⟨by simp [Vol.shape, ifree, other], names_of_addsNothing nothing x⟩
    · calc (names (v.ifree ino).dirs ino).encard
          ≤ (names v.dirs ino).encard := Set.encard_le_encard (names_of_addsNothing nothing ino)
        _ ≤ allowance (v.shape ino) := counted.named ino
        _ = 0 := by rw [unnamed]; rfl
        _ ≤ _ := zero_le
    · intro nlink shape
      simp [Vol.shape, ifree] at shape
  · exact counted

end Keeps

/-! ## Insertions that fail -/

/-- If the insertion fails, the name is not found afterwards. -/
def Clean (fate : Fate) (name : Name) : Prop :=
  fate.errno ≠ none → fate.adds = true → fate.cuts name = true

instance (fate : Fate) (name : Name) : Decidable (Clean fate name) := by
  unfold Clean
  infer_instance

section Clean

variable {fate : Fate} {name : Name} {ino : Ino}

theorem find_of_btreeInsert_fails (clean : Clean fate name) {d : Dir}
    (failed : (btreeInsert fate d name ino).1 ≠ none) {n : Name} {x : Ino}
    (found : (btreeInsert fate d name ino).2.find n = some x) : d.find n = some x := by
  by_cases named : name = ""
  · simpa [btreeInsert, named] using found
  cases absent : d.find name with
  | some y =>
    have present : name ∈ d := AList.lookup_isSome.mp (Option.isSome_of_eq_some absent)
    cases fate <;> simpa [btreeInsert, named, present] using found
  | none =>
    rw [btreeInsert_errno fate named absent] at failed
    rw [find_btreeInsert fate named absent] at found
    split at found
    · cases found
    rename_i uncut
    split at found
    · rename_i new
      exact absurd (new.1 ▸ clean failed new.2) uncut
    · exact found

theorem insert_fails_adds (clean : Clean fate name) {v : Rename.Volume} {dir : Ino}
    (failed : (btreeInsert fate (v dir) name ino).1 ≠ none) :
    AddsNothing v (v.set dir (btreeInsert fate (v dir) name ino).2) :=
  set_addsNothing fun _ _ found => find_of_btreeInsert_fails clean failed found

end Clean

/-! ## New entries -/

section New

variable {v : Vol} {m : Making} {ino : Ino}

/-- A block that is free has no names. -/
theorem Counted.unnamed (counted : Counted v) (free : v.inodes ino = none) :
    (names v.dirs ino).encard ≤ ((0 : Nat) : ℕ∞) := by
  have bound := counted.named ino
  rwa [shape, free] at bound

section

variable (counted : Counted v) (free : v.inodes m.ino = none)

include counted free

/-- A new inode, with its one name. -/
theorem Counted.enter {w : Vol} (isDir : Bool) (nlink : Nat) (linked : 1 ≤ nlink)
    (few : nlink ≤ linkMax)
    (shape : ∀ x, w.shape x = if x = m.ino then some (isDir, nlink) else v.shape x)
    (adds : ∀ x, names w.dirs x ⊆ insert (m.dir, m.name) (names v.dirs x))
    (others : ∀ x, x ≠ m.ino → names w.dirs x ⊆ names v.dirs x) : Counted w := by
  have one : 1 ≤ allowance (some (isDir, nlink)) := by
    cases isDir
    · exact linked
    · simp only [allowance]
      omega
  apply counted.change m.ino
  · intro x other
    exact ⟨by rw [shape, if_neg other], others x other⟩
  · rw [shape, if_pos rfl]
    calc (names w.dirs m.ino).encard
        ≤ ((0 + 1 : Nat) : ℕ∞) := encard_insert_le (adds m.ino) (counted.unnamed free)
      _ ≤ allowance (some (isDir, nlink)) := by exact_mod_cast one
  · intro n found
    rw [shape, if_pos rfl] at found
    cases found
    exact few

theorem makeNode_counted (clean : Clean m.insert m.name) {kind : Kind} (file : kind ≠ .directory)
    (size : UInt32) (count : Nat) :
    Counted (makeNode v m kind size count).2 := by
  have adds := insert_adds m.insert v.dirs m.dir m.name m.ino
  simp only [makeNode]
  split
  · exact counted
  split
  · rename_i e failed
    exact counted.fewer (fun _ => rfl) (insert_fails_adds clean (by simp [failed]))
  apply Counted.resize
  refine counted.enter free false 1 (by decide) (by decide) ?_ (names_of_adds adds) ?_
  · intro x
    have noDir : ((freshInode kind 1 size count m.time).setName m.name).isDir = false :=
      decide_eq_false file
    rw [shape_indexAdd, shape_put, noDir]
    rfl
  · exact fun x other => names_of_adds_other adds other

/-- When the data cannot be written, the entry that was made is deleted. -/
theorem symlink_counted (clean : Clean m.insert m.name) (target : UInt32) {data undo : Option Errno}
    (undone : data ≠ none → undo = none) : Counted (symlink v m target data undo).2 := by
  unfold symlink
  split
  · exact makeNode_counted counted free clean (by decide) target 0
  obtain rfl := undone (by simp)
  split
  · exact counted
  simp only
  split
  · rename_i failed
    exact counted.fewer (fun _ => rfl) (insert_fails_adds clean (by simp [failed]))
  · rename_i fine
    refine counted.fewer (fun _ => rfl) (set_addsNothing ?_)
    intro n x found
    rcases find_of_btreeInsert (find_of_btreeDelete found) with old | ⟨rfl, -⟩
    · exact old
    · rw [find_btreeDelete_self (btreeInsert_named fine)] at found
      cases found

end

theorem names_newDir (dirs : Rename.Volume) (ino parent x : Ino) :
    names (dirs.set ino (newDir ino parent)) x ⊆ names dirs x := by
  rintro ⟨d, n⟩ ⟨plain, found⟩
  refine ⟨plain, ?_⟩
  by_cases new : d = ino
  · subst new
    simp only [Rename.Volume.set, Function.update_self, newDir_plain _ _ plain] at found
    cases found
  · rwa [Rename.Volume.set, Function.update_of_ne new] at found

/-- The inode stays, however the insertion ends, and may have the name or not. -/
theorem mkdir_counted (counted : Counted v) (free : v.inodes m.ino = none) :
    Counted (mkdir v m).2 := by
  have adds := insert_adds m.insert (v.dirs.set m.ino (newDir m.ino m.dir)) m.dir m.name m.ino
  have before := names_newDir v.dirs m.ino m.dir
  have entered : ∀ i : Inode, i.isDir = true → i.nlink = 2 →
      Counted ((((v.put m.ino (freshInode .directory 2 2048 0 m.time)).setDir m.ino
        (newDir m.ino m.dir)).setDir m.dir (btreeInsert m.insert ((v.dirs.set m.ino
          (newDir m.ino m.dir)) m.dir) m.name m.ino).2).put m.ino i) := by
    intro i isDir links
    refine counted.enter free true 2 (by decide) (by decide) ?_ ?_ ?_
    · intro x
      rw [setDir_put, setDir_put, put_put, shape_put, isDir, links]
      rfl
    · exact fun x => (names_of_adds adds x).trans (Set.insert_subset_insert (before x))
    · exact fun x other => (names_of_adds_other adds other).trans (before x)
  simp only [mkdir]
  split
  · exact counted
  split
  · have stays := entered (freshInode .directory 2 2048 0 m.time) rfl rfl
    rwa [setDir_put, setDir_put, put_put] at stays
  · apply Counted.resize
    exact (entered ((freshInode .directory 2 2048 0 m.time).setName m.name) rfl rfl).fewer
      (fun _ => rfl) fun _ _ _ found => found

theorem link_counted (counted : Counted v) {i : Inode} (here : v.inodes ino = some i)
    (clean : Clean m.insert m.name) : Counted (link v m ino i).2 := by
  have adds := insert_adds m.insert v.dirs m.dir m.name ino
  simp only [link]
  split
  · exact counted
  rename_i noDir
  have file : i.isDir = false := by simpa using noDir
  have shape : v.shape ino = some (false, i.nlink) := by simp [Vol.shape, here, file]
  split
  · exact counted
  have few := counted.few ino i.nlink shape
  split
  · exact counted
  split
  · rename_i e failed
    exact counted.fewer (fun _ => rfl) (insert_fails_adds clean (by simp [failed]))
  apply Counted.resize
  have after : ∀ x, ((v.setDir m.dir (btreeInsert m.insert (v.dirs m.dir) m.name ino).2).put
      ino i.addLink).shape x = if x = ino then some (false, i.nlink + 1) else v.shape x := by
    intro x
    rw [shape_put, shape_setDir, addLink_nlink few, addLink_isDir, file]
  apply counted.change ino
  · intro x other
    exact ⟨by rw [after, if_neg other], names_of_adds_other adds other⟩
  · rw [after, if_pos rfl]
    have bound := counted.named ino
    rw [shape] at bound
    exact encard_insert_le (names_of_adds adds ino) bound
  · intro n found
    rw [after, if_pos rfl] at found
    cases found
    omega

end New

/-! ## Removals -/

section Remove

variable {v w : Vol} {dir ino : Ino} {name : Name} {i : Inode}

/-- An inode loses a name, and no more than one link. -/
theorem Counted.lose (counted : Counted v) (isDir : Bool) (nlink : Nat)
    (member : (dir, name) ∈ names v.dirs ino) (nothing : AddsNothing v.dirs w.dirs)
    (gone : (w.dirs dir).find name = none)
    (shape : ∀ x, w.shape x = if x = ino then some (isDir, nlink) else v.shape x)
    (enough : allowance (v.shape ino) - 1 ≤ allowance (some (isDir, nlink)))
    (few : isDir = false → nlink ≤ linkMax) : Counted w := by
  apply counted.change ino
  · intro x other
    exact ⟨by rw [shape, if_neg other], names_of_addsNothing nothing x⟩
  · rw [shape, if_pos rfl]
    calc (names w.dirs ino).encard
        ≤ ((allowance (v.shape ino) - 1 : Nat) : ℕ∞) :=
          encard_remove_le member (names_of_removes nothing gone ino) (counted.named ino)
      _ ≤ allowance (some (isDir, nlink)) := by exact_mod_cast enough
  · intro n found
    rw [shape, if_pos rfl] at found
    cases found
    exact few rfl

theorem unlink_counted (counted : Counted v) (found : v.lookup dir name = some (ino, i))
    (plain : isDot name = true → i.isDir = true) (failure : Option Errno) (t : Moment) :
    Counted (unlink v dir name ino i failure t).2 := by
  obtain ⟨entry, here⟩ := lookup_eq_some found
  have nothing := delete_adds failure v.dirs dir name
  simp only [unlink]
  split
  · exact counted
  rename_i noDir
  have file : i.isDir = false := by simpa using noDir
  split
  · exact counted.fewer (fun _ => rfl) nothing
  rename_i fine
  have member : (dir, name) ∈ names v.dirs ino := by
    refine ⟨?_, entry⟩
    cases dot : isDot name with
    | true => exact absurd (plain dot) noDir
    | false => rfl
  have shape : v.shape ino = some (false, i.nlink) := by simp [Vol.shape, here, file]
  have few := counted.few ino i.nlink shape
  have bound := counted.named ino
  rw [shape] at bound
  have some := one_le_of_encard_le member bound
  apply Counted.settle
  apply Counted.resize
  refine counted.lose false (i.nlink - 1) member nothing ?_ ?_ ?_ ?_
  · simp [put, indexRemove, setDir, Rename.Volume.set, btreeDelete_done fine, find_erase]
  · intro x
    rw [shape_put, shape_indexRemove, shape_setDir, dropLink_nlink some few, dropLink_isDir, file]
  · rw [shape]
    exact le_refl _
  · omega

/-- Neither `.` nor `..` of the directory leads to the inode. -/
def NoDotLeads (v : Vol) (dir ino : Ino) : Prop :=
  (v.dirs dir).find "." ≠ some ino ∧ (v.dirs dir).find ".." ≠ some ino

instance (v : Vol) (dir ino : Ino) : Decidable (NoDotLeads v dir ino) := by
  unfold NoDotLeads
  infer_instance

theorem NoDotLeads.plain {v : Vol} {dir ino : Ino} {name : Name} (noDot : NoDotLeads v dir ino)
    (found : (v.dirs dir).find name = some ino) : isDot name = false := by
  rw [isDot, decide_eq_false_iff_not]
  rintro (rfl | rfl)
  · exact noDot.1 found
  · exact noDot.2 found

theorem Counted.loseDir (counted : Counted v) (here : v.inodes ino = some i)
    (isDir : i.isDir = true) (noDot : NoDotLeads v dir ino) {failure : Option Errno}
    (done : (btreeDeleteIno failure (v.dirs dir) ino).1 = none)
    (dirs : w.dirs = v.dirs.set dir (btreeDeleteIno failure (v.dirs dir) ino).2)
    (shape : ∀ x, w.shape x = if x = ino then some (true, 0) else v.shape x) : Counted w := by
  obtain ⟨name, found, erased⟩ := btreeDeleteIno_done done
  have member : (dir, name) ∈ names v.dirs ino := ⟨noDot.plain found, found⟩
  refine counted.lose true 0 member (dirs ▸ deleteIno_adds failure v.dirs dir ino) ?_ shape ?_ ?_
  · simp [dirs, erased, Rename.Volume.set, find_erase]
  · simp [Vol.shape, here, isDir, allowance]
  · intro file
    cases file

theorem rmdir_counted (counted : Counted v) (here : v.inodes ino = some i)
    (noDot : NoDotLeads v dir ino) (failure : Option Errno) (unread : Nat) (t : Moment) :
    Counted (rmdir v dir ino i failure unread t).2 := by
  simp only [rmdir]
  split
  · exact counted
  rename_i isDir
  have isDir : i.isDir = true := by simpa using isDir
  iterate 3
    split
    · exact counted
  split
  · exact counted.fewer (fun _ => rfl) (deleteIno_adds failure v.dirs dir ino)
  rename_i fine
  apply Counted.settle
  apply Counted.resize
  refine counted.loseDir here isDir noDot fine ?_ ?_
  · simp [put, setDir]
  · intro x
    rw [shape_put, shape_indexRemoveOwn, ← isDir]
    rfl

end Remove

/-! ## Renames -/

section Rename

variable {v : Vol} {r : Renaming} {ino : Ino} {i : Inode}

section Entry

variable (call : Rename.Call) (env : Rename.Env) (dirs : Rename.Volume)

/-- A move that fails leaves no new name. -/
theorem moveEntry_fails (clean : Clean env.insertNew call.newpath)
    (old : (dirs call.dirOld).find call.oldpath = some call.iOld)
    (failed : (moveEntry call env dirs).errno ≠ none) :
    AddsNothing dirs ((moveEntry call env dirs).final dirs) := by
  have deletes := delete_adds env.deleteOld dirs call.dirOld call.oldpath
  rcases moveEntry_cases call env dirs with
    ⟨-, same | less⟩ | ⟨done, -⟩ | ⟨-, -, refused, final⟩
  · rw [same]
    exact fun _ _ _ found => found
  · rw [less]
    exact deletes
  · exact absurd done failed
  rw [final]
  intro d n x found
  rcases insert_adds _ _ _ _ _ d n x found with same | ⟨rfl, rfl, rfl⟩
  · exact deletes d n x (insert_fails_adds clean refused d n x same)
  · exact old

/-- A move that succeeds leaves the new name for the old one. -/
theorem moveEntry_names (done : (moveEntry call env dirs).errno = none) (x : Ino) :
    names ((moveEntry call env dirs).final dirs) x ⊆
      insert (call.dirNew, call.newpath) (names dirs x \ {(call.dirOld, call.oldpath)}) := by
  obtain ⟨-, final⟩ := moveEntry_done done
  have gone : ((dirs.set call.dirOld ((dirs call.dirOld).erase call.oldpath)) call.dirOld).find
      call.oldpath = none := by
    simp [Rename.Volume.set, find_erase]
  rw [final]
  exact (names_of_adds (insert_adds _ _ _ _ _) x).trans
    (Set.insert_subset_insert (names_of_removes (erase_adds _ _ _) gone x))

end Entry

theorem moveInode_counted (counted : Counted v) (here : v.inodes ino = some i)
    (plain : isDot r.oldpath = false) (old : (v.dirs r.dirOld).find r.oldpath = some ino)
    (clean : Clean r.env.insertNew r.newpath) : Counted (moveInode v r ino i).2 := by
  have member : (r.dirOld, r.oldpath) ∈ names v.dirs ino := ⟨plain, old⟩
  have named : Counted (v.put ino (i.setName r.newpath)) := counted.put here rfl rfl
  simp only [moveInode]
  split
  · exact counted
  split
  · rename_i e failed
    have nothing := moveEntry_fails (r.call ino none) r.env v.dirs clean old (by simp [failed])
    exact named.fewer (fun _ => rfl) nothing
  · rename_i done
    have moved : Counted { v.put ino (i.setName r.newpath) with
        dirs := (moveEntry (r.call ino none) r.env v.dirs).final v.dirs } := by
      refine named.change ino ?_ ?_ (named.few ino)
      · intro x other
        have adds : AddsOnly v.dirs
            ((moveEntry (r.call ino none) r.env v.dirs).final v.dirs) r.dirNew r.newpath ino :=
          moveEntry_adds fun _ => old
        exact ⟨rfl, names_of_adds_other adds other⟩
      · exact (encard_swap_le member (moveEntry_names _ _ _ done ino)).trans (named.named ino)
    split
    · apply Counted.resize
      exact moved.fewer (fun _ => rfl) fun _ _ _ found => found
    · apply Counted.resize
      apply Counted.resize
      exact moved.fewer (fun _ => rfl) fun _ _ _ found => found

/-- The target's entry goes, and no entry of another inode. -/
theorem deleteTarget_keeps {env : Rename.Env} {d : Dir} {newpath n : Name} {t : Target} {x : Ino}
    (target : d.find newpath = some t.ino) (found : d.find n = some x) (other : x ≠ t.ino) :
    (deleteTarget env d newpath t).2.find n = some x := by
  -- the erased name leads to the target, so it is another name
  have erased : ∀ {name : Name}, d.find name = some t.ino → find (d.erase name) n = some x := by
    intro name leads
    rw [find_erase, if_neg, found]
    rintro rfl
    exact other (Option.some.inj (found.symm.trans leads))
  unfold deleteTarget
  split
  · cases done : (btreeDeleteIno env.deleteTarget d t.ino).1 with
    | none =>
      obtain ⟨name, leads, result⟩ := btreeDeleteIno_done done
      rw [result]
      exact erased leads
    | some e => rwa [btreeDeleteIno_unchanged done]
  · cases done : (btreeDelete env.deleteTarget d newpath).1 with
    | none =>
      rw [btreeDelete_done done]
      exact erased target
    | some e => rwa [btreeDelete_unchanged done]

/-- The target loses its name, and a link for it. -/
theorem unlinkTarget_counted (counted : Counted v) {t : Ino} {j : Inode}
    (target : v.lookup r.dirNew r.newpath = some (t, j)) (plain : isDot r.newpath = false)
    (noDot : j.isDir = true → NoDotLeads v r.dirNew t)
    (done : (r.deleted v ⟨t, j.isDir⟩).1 = none) :
    Counted (unlinkTarget (v.setDir r.dirNew (r.deleted v ⟨t, j.isDir⟩).2) ⟨t, j.isDir⟩) := by
  obtain ⟨entry, here⟩ := lookup_eq_some target
  have nothing := deleteTarget_adds r.env v.dirs r.dirNew r.newpath ⟨t, j.isDir⟩
  have shape := unlinkTarget_shape (v := v.setDir r.dirNew (r.deleted v ⟨t, j.isDir⟩).2)
    (t := ⟨t, j.isDir⟩) here
  cases isDir : j.isDir with
  | true =>
    rw [isDir] at done nothing shape
    exact counted.loseDir here isDir (noDot isDir) done (unlinkTarget_dirs _ _) shape
  | false =>
    rw [isDir] at done nothing shape
    have before : v.shape t = some (false, j.nlink) := by simp [Vol.shape, here, isDir]
    have few := counted.few t j.nlink before
    refine counted.lose false (j.nlink - 1) ⟨plain, entry⟩ ?_ ?_ shape ?_ ?_
    · rw [unlinkTarget_dirs]
      exact nothing
    · have erased := btreeDelete_done done
      simp [setDir, Rename.Volume.set, Renaming.deleted, deleteTarget, erased, find_erase]
    · rw [before]
      exact le_refl _
    · omega

/-- A rename that leaves a link for every name: an insertion that fails has left no name, and what
goes with a directory that is replaced is its name. -/
def SafeRename (v : Vol) (r : Renaming) : Prop :=
  Clean r.env.insertNew r.newpath ∧
    ∀ target ∈ v.lookup r.dirNew r.newpath, target.2.isDir = true → NoDotLeads v r.dirNew target.1

instance (v : Vol) (r : Renaming) : Decidable (SafeRename v r) := by
  unfold SafeRename
  infer_instance

theorem rename_counted (counted : Counted v) (safe : SafeRename v r) {result : Result}
    (called : sysRename v r = some result) : Counted result.2 := by
  obtain ⟨clean, first⟩ := safe
  rcases sysRename_cases called with same | ⟨ino, i, found, plainOld, plainNew, -, -, asked⟩
  · exact same ▸ counted
  obtain ⟨old, here⟩ := lookup_eq_some found
  rcases asked with ⟨-, rfl⟩ | ⟨t, j, target, different, -, rfl⟩
  · unfold agfsRename
    split
    · exact counted
    · exact moveInode_counted counted here plainOld old clean
  · obtain ⟨entry, there⟩ := lookup_eq_some target
    simp only [agfsRename]
    split
    · exact counted
    split
    · exact counted
    split
    · exact counted.fewer (fun _ => rfl) (deleteTarget_adds _ _ _ _ _)
    rename_i done
    apply Counted.settle
    refine moveInode_counted
      (unlinkTarget_counted counted target plainNew (first _ target) done) ?_ plainOld ?_ clean
    · rw [unlinkTarget_inodes there, Function.update_of_ne different]
      exact here
    · rw [unlinkTarget_dirs]
      by_cases same : r.dirOld = r.dirNew
      · rw [same] at old ⊢
        simp only [setDir, Rename.Volume.set, Function.update_self]
        exact deleteTarget_keeps entry old different
      · simpa [setDir, Rename.Volume.set, same] using old

end Rename

/-! ## Runs -/

/-- A call that leaves a link for every name. -/
def SafeLabel (v : Vol) : Label → Prop
  | .create m | .mknod _ m | .link _ _ m => Clean m.insert m.name
  | .symlink _ data undo m => Clean m.insert m.name ∧ (data ≠ none → undo = none)
  | .unlink dir name _ _ =>
    ∀ found ∈ v.lookup dir name, isDot name = true → found.2.isDir = true
  | .rmdir dir name .. => ∀ found ∈ v.lookup dir name, NoDotLeads v dir found.1
  | .rename r => SafeRename v r
  | .evict ino => ∀ i ∈ v.inodes ino, i.isDir = false → i.nlink ≤ 1
  | .mkdir _ | .write .. | .truncate .. | .utimensat .. | .openFile .. | .closeFile _ | .flush _ => True

instance (v : Vol) (l : Label) : Decidable (SafeLabel v l) := by
  refine l.casesOn ?_ ?_ ?_ ?_ ?_ ?_ ?_ ?_ ?_ ?_ ?_ ?_ ?_ ?_ ?_ <;> intros <;>
    unfold SafeLabel <;> infer_instance

/-- An inode that comes back from the disk has a link again. -/
theorem Counted.reread {v : Vol} (counted : Counted v) {ino : Ino} {i : Inode}
    (here : v.inodes ino = some i) (linked : i.nlink ≠ 0)
    (single : i.isDir = false → i.nlink ≤ 1) : Counted (v.put ino i.reread) := by
  have own : allowance (some (i.isDir, i.reread.nlink)) = allowance (v.shape ino) := by
    cases isDir : i.isDir with
    | true =>
      simp [Vol.shape, here, isDir, Inode.reread, allowance]
      omega
    | false =>
      have one := single isDir
      simp [Vol.shape, here, isDir, Inode.reread, allowance]
      omega
  apply counted.change ino
  · intro x other
    exact ⟨by rw [shape_put, if_neg other], le_refl _⟩
  · have bound := counted.named ino
    rw [shape_put, if_pos rfl]
    exact own ▸ bound
  · intro nlink shape
    rw [shape_put, if_pos rfl] at shape
    obtain ⟨-, rfl⟩ := Prod.mk.inj (Option.some.inj shape)
    simp only [Inode.reread]
    split <;> decide

variable {l : Label}

theorem call_counted {v : Vol} {result : Result} (counted : Counted v)
    (safe : SafeLabel v l) (called : call v l = some result) : Counted result.2 := by
  cases l with
  | create m =>
    obtain ⟨-, free, rfl⟩ := Making.of_allowed called
    exact makeNode_counted counted free safe (by decide) 0 1
  | mknod kind m =>
    obtain ⟨-, free, rfl⟩ := Making.of_allowed called
    cases kind with
    | regular | special => exact makeNode_counted counted free safe (by decide) 0 0
    | directory | symlink => exact counted
  | symlink target data undo m =>
    obtain ⟨-, free, rfl⟩ := Making.of_allowed called
    exact symlink_counted counted free safe.1 target safe.2
  | mkdir m =>
    obtain ⟨-, free, rfl⟩ := Making.of_allowed called
    exact mkdir_counted counted free
  | link dirOld oldname m =>
    simp only [call] at called
    split at called
    · obtain ⟨⟨ino, i⟩, found, rfl⟩ := map_eq_some_iff.mp called
      exact link_counted counted (lookup_eq_some found).2 safe
    · cases called
  | unlink dir name failure time =>
    obtain ⟨⟨ino, i⟩, found, rfl⟩ := map_eq_some_iff.mp called
    exact unlink_counted counted found (safe _ found) failure time
  | rmdir dir name failure unread time =>
    obtain ⟨⟨ino, i⟩, found, rfl⟩ := map_eq_some_iff.mp called
    exact rmdir_counted counted (lookup_eq_some found).2 (safe _ found) failure unread time
  | rename r =>
    simp only [call] at called
    split at called
    · exact rename_counted counted safe called
    · cases called
  | write ino off n time | truncate ino length time =>
    obtain ⟨i, here, rfl⟩ := map_eq_some_iff.mp called
    exact counted.resize _ _
  | utimensat ino mtime | flush ino =>
    obtain ⟨i, here, rfl⟩ := map_eq_some_iff.mp called
    exact counted.put here rfl rfl
  | openFile dir name =>
    obtain ⟨⟨ino, i⟩, found, rfl⟩ := map_eq_some_iff.mp called
    exact counted.put (lookup_eq_some found).2 rfl rfl
  | closeFile ino =>
    obtain ⟨i, here, result⟩ := Option.bind_eq_some_iff.mp called
    split at result
    · cases result
    · cases result
      apply Counted.settle
      exact counted.put here rfl rfl
  | evict ino =>
    obtain ⟨i, here, result⟩ := Option.bind_eq_some_iff.mp called
    split at result
    · rename_i idle
      cases result
      exact counted.reread here idle.2 (safe i here)
    · cases result

theorem emptyVol_unnamed (ino : Ino) : names emptyVol.dirs ino = ∅ := by
  rw [Set.eq_empty_iff_forall_notMem]
  rintro ⟨d, n⟩ ⟨named, found⟩
  rw [emptyVol_plain named] at found
  cases found

theorem emptyVol_counted : Counted emptyVol := by
  constructor
  · simp [emptyVol_unnamed]
  · intro ino nlink shape
    by_cases root : ino = 2
    · subst root
      cases shape
    · simp [Vol.shape, emptyVol, root] at shape

end Argentum.Agfs.LinkCount
