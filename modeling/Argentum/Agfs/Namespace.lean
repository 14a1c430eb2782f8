/-
# Agfs.Namespace — the calls that change names, over a whole volume

A volume as the calls of `fs/agfs/namei.c` see it: the inodes in use with what the inode
cache holds of them, the directories as `Agfs.Directory` has them (`.` and `..` are entries
like any other), and the three indices of `fs/agfs/indices.c` as lists of pairs.

A call is made with the names that the system call has looked up: `sys_link`,
`sys_unlinkat`, `sys_rmdir` and `sys_rename` contribute the tests that decide whether the
file system is asked at all. What the call meets on its way comes with it: the block
`ialloc` gets, how the B+tree calls end (`Fate`), the entries that a count does not reach, the
new size of a directory, the time.

`count` holds the references of open files and of working directories. At the end of a call
`iput` frees what has neither a reference nor a link (`settle`). An inode without references
may leave the cache and is read again later (`evict`).
-/
import Argentum.Agfs.Rename

namespace Argentum.Agfs.Namespace

open Agfs.Rename (Target)
open Function Rename

/-! ## Inodes -/

/-- The type bits of `i_mode`; a socket or a fifo is `special`. -/
inductive Kind where
  | regular
  | directory
  | symlink
  | special
  deriving DecidableEq

structure Inode where
  kind : Kind
  /-- `i_nlink`, of sixteen bits. -/
  nlink : Nat
  /-- The file's name as the `0x13` record has it; empty if there is no such record. -/
  name : Name
  /-- `i_size`. -/
  size : UInt32
  /-- `i_mtime`, in seconds. -/
  mtime : Nat
  /-- `raw.last_modified_time`: seconds, and 65536ths of a second in the low sixteen bits. -/
  lastModified : Nat
  /-- The references that outlive a call. -/
  count : Nat
  deriving DecidableEq

/-- The clock, as `CURRENT_TIME` and `agfs_subsecond` read it. -/
structure Moment where
  now : Nat
  sub : Nat
  now_lt : now < 2 ^ 48
  sub_lt : sub < 2 ^ 16

/-- `LINK_MAX`. -/
def linkMax : Nat := 255

namespace Inode

variable (i : Inode)

def isDir : Bool := i.kind = .directory

/-- `agfs_touch_mtime`. -/
def touch (m : Moment) : Inode :=
  { i with mtime := m.now, lastModified := m.now * 2 ^ 16 + m.sub }

/-- The modification time as `agfs_write_inode` stores it. -/
def stored : Nat :=
  if i.lastModified / 2 ^ 16 = i.mtime then i.mtime * 2 ^ 16 % 2 ^ 64 + i.lastModified % 2 ^ 16
  else i.mtime * 2 ^ 16 % 2 ^ 64

/-- `agfs_write_inode`. -/
def write : Inode := { i with lastModified := i.stored }

/-- `agfs_inode_set_name`; it writes the inode. -/
def setName (name : Name) : Inode := write { i with name := name }

/-- `i_nlink++`. -/
def addLink : Inode := { i with nlink := (i.nlink + 1) % 2 ^ 16 }

/-- `--i_nlink`; below zero it starts again from the top. -/
def dropLink : Inode := { i with nlink := (i.nlink + 65535) % 2 ^ 16 }

/-- `agfs_read_inode`, from what the last writing left. -/
def reread : Inode :=
  { i with nlink := if i.isDir then 2 else 1, mtime := i.lastModified / 2 ^ 16 }

end Inode

theorem Inode.dropLink_nlink {i : Inode} (some : 1 ≤ i.nlink) (few : i.nlink ≤ linkMax) :
    i.dropLink.nlink = i.nlink - 1 := by
  unfold linkMax at few
  simp only [Inode.dropLink]
  omega

theorem Inode.addLink_nlink {i : Inode} (few : i.nlink ≤ linkMax) :
    i.addLink.nlink = i.nlink + 1 := by
  unfold linkMax at few
  simp only [Inode.addLink]
  omega

theorem Inode.isDir_nlink (i : Inode) (nlink : Nat) : { i with nlink := nlink }.isDir = i.isDir := rfl

@[simp] theorem Inode.dropLink_isDir (i : Inode) : i.dropLink.isDir = i.isDir := i.isDir_nlink _

@[simp] theorem Inode.addLink_isDir (i : Inode) : i.addLink.isDir = i.isDir := i.isDir_nlink _

/-! ## Volumes -/

abbrev Index (κ : Type) := List (κ × Ino)

structure Vol where
  root : Ino
  inodes : Ino → Option Inode
  dirs : Rename.Volume
  nameIndex : Index Name
  sizeIndex : Index UInt32
  timeIndex : Index Nat

namespace Vol

variable (v : Vol)

variable (ino : Ino) (i : Inode) (name : Name)

def put : Vol := { v with inodes := update v.inodes ino (some i) }

def setDir (dir : Ino) (d : Dir) : Vol := { v with dirs := v.dirs.set dir d }

/-- `agfs_lookup`. -/
def lookup (dir : Ino) (name : Name) : Option (Ino × Inode) :=
  ((v.dirs dir).find name).bind fun ino => (v.inodes ino).map fun i => (ino, i)

/-- The directory itself is there. -/
def isDir (dir : Ino) : Bool := (v.inodes dir).any Inode.isDir

/-- `agfs_index_add`. -/
def indexAdd : Vol :=
  { v with
    nameIndex := (name, ino) :: v.nameIndex
    sizeIndex := (i.size, ino) :: v.sizeIndex
    timeIndex := (i.lastModified, ino) :: v.timeIndex }

/-- `agfs_index_remove`. -/
def indexRemove : Vol :=
  { v with
    nameIndex := v.nameIndex.erase (name, ino)
    sizeIndex := v.sizeIndex.erase (i.size, ino)
    timeIndex := v.timeIndex.erase (i.lastModified, ino) }

/-- `agfs_index_resize`. -/
def indexResize (oldSize : UInt32) (oldMtime : Nat) : Vol :=
  if i.nlink = 0 then v
  else
    { v.put ino i.write with
      sizeIndex := (i.size, ino) :: v.sizeIndex.erase (oldSize, ino)
      timeIndex := (i.lastModified, ino) :: v.timeIndex.erase (oldMtime, ino) }

/-- A change of size, with what always follows it: the time and the index entries. -/
def resize (size : UInt32) (m : Moment) : Vol :=
  match v.inodes ino with
  | none => v
  | some i =>
    let i' := Inode.touch { i with size := size } m
    (v.put ino i').indexResize ino i' i.size i.lastModified

/-- The `ifree` of an inode: its blocks, and the tree of a directory. -/
def ifree : Vol :=
  { v with inodes := update v.inodes ino none, dirs := v.dirs.set ino ∅ }

/-- `iput`, when the call's own reference was the last but `count`. -/
def settle : Vol :=
  match v.inodes ino with
  | none => v
  | some i => if i.count = 0 ∧ i.nlink = 0 then v.ifree ino else v

/-- The record's name, if there is one, is taken out of the indices with the rest. -/
def indexRemoveOwn : Vol :=
  if i.name = "" then v else v.indexRemove ino i i.name

end Vol

abbrev Result := Option Errno × Vol

/-! ## New entries -/

/-- A call that makes an entry. -/
structure Making where
  dir : Ino
  name : Name
  /-- The block that `ialloc` gets. -/
  ino : Ino
  insert : Fate
  /-- The size of the directory afterwards. -/
  dirSize : UInt32
  time : Moment

/-- An inode as `agfs_ialloc` and the first lines after it leave it. -/
def freshInode (kind : Kind) (nlink : Nat) (size : UInt32) (count : Nat) (time : Moment) : Inode :=
  Inode.touch ⟨kind, nlink, "", size, 0, 0, count⟩ time

section New

variable (v : Vol) (m : Making)

/-- What `agfs_create`, `agfs_mknod` and `agfs_symlink` have in common. A failed insertion
frees the inode again. -/
def makeNode (kind : Kind) (size : UInt32) (count : Nat) : Result :=
  if ((v.dirs m.dir).find m.name).isSome then (some .eexist, v)
  else
    let inserted := btreeInsert m.insert (v.dirs m.dir) m.name m.ino
    let v₁ := v.setDir m.dir inserted.2
    match inserted.1 with
    | some e => (some e, v₁)
    | none =>
      let i := (freshInode kind 1 size count m.time).setName m.name
      (none, ((v₁.put m.ino i).indexAdd m.ino i m.name).resize m.dir m.dirSize m.time)

/-- `agfs_create`; the file is handed to its opener. -/
def create : Result := makeNode v m .regular 0 1

/-- `agfs_mknod`. -/
def mknod (kind : Kind) : Result :=
  match kind with
  | .regular | .special => makeNode v m kind 0 0
  | .directory | .symlink => (some .eperm, v)

/-- `agfs_symlink`. Writing a long target can fail when the entry is there already; the entry is
deleted again, if that succeeds. -/
def symlink (target : UInt32) (data undo : Option Errno) : Result :=
  match data with
  | none => makeNode v m .symlink target 0
  | some e =>
    if ((v.dirs m.dir).find m.name).isSome then (some .eexist, v)
    else
      let inserted := btreeInsert m.insert (v.dirs m.dir) m.name m.ino
      match inserted.1 with
      | some e => (some e, v.setDir m.dir inserted.2)
      | none => (some e, v.setDir m.dir (btreeDelete undo inserted.2 m.name).2)

/-- `.` and `..`. -/
def newDir (ino parent : Ino) : Dir := AList.insert ".." parent (AList.insert "." ino ∅)

/-- `agfs_mkdir`. A failed insertion leaves the inode behind. -/
def mkdir : Result :=
  if ((v.dirs m.dir).find m.name).isSome then (some .eexist, v)
  else
    let i := freshInode .directory 2 2048 0 m.time
    let v₁ := (v.put m.ino i).setDir m.ino (newDir m.ino m.dir)
    let inserted := btreeInsert m.insert (v₁.dirs m.dir) m.name m.ino
    let v₂ := v₁.setDir m.dir inserted.2
    match inserted.1 with
    | some e => (some e, v₂)
    | none =>
      let i' := i.setName m.name
      (none, ((v₂.put m.ino i').indexAdd m.ino i' m.name).resize m.dir m.dirSize m.time)

/-- `sys_link` and `agfs_link`: `m.ino` is not used, the entry leads to an inode that is there. -/
def link (ino : Ino) (i : Inode) : Result :=
  if i.isDir then (some .eperm, v)
  else if i.nlink = linkMax then (some .emlink, v)
  else if ((v.dirs m.dir).find m.name).isSome then (some .eexist, v)
  else
    let inserted := btreeInsert m.insert (v.dirs m.dir) m.name ino
    let v₁ := v.setDir m.dir inserted.2
    match inserted.1 with
    | some e => (some e, v₁)
    | none =>
      (none, (v₁.put ino i.addLink).resize m.dir m.dirSize m.time)

end New

/-! ## Removals -/

/-- A directory that keeps its size is touched. -/
def Vol.touchDir (v : Vol) (dir : Ino) (m : Moment) : Vol :=
  v.resize dir (((v.inodes dir).map Inode.size).getD 0) m

section Remove

variable (v : Vol) (dir : Ino) (name : Name) (ino : Ino) (i : Inode) (failure : Option Errno)
  (unread : Nat) (m : Moment)

/-- `sys_unlink` and `agfs_unlink`. -/
def unlink : Result :=
  if i.isDir then (some .eisdir, v)
  else
    let deleted := btreeDelete failure (v.dirs dir) name
    match deleted.1 with
    | some e => (some e, v.setDir dir deleted.2)
    | none =>
      let v₁ := (v.setDir dir deleted.2).indexRemove ino i name
      (none, ((v₁.put ino i.dropLink).touchDir dir m).settle ino)

/-- `sys_rmdir` and `agfs_rmdir`. -/
def rmdir : Result :=
  if !i.isDir then (some .enotdir, v)
  else if ino = v.root then (some .ebusy, v)
  else if ino = dir then (some .eperm, v)
  else if !dirEmpty unread (v.dirs ino) then (some .enotempty, v)
  else
    let deleted := btreeDeleteIno failure (v.dirs dir) ino
    match deleted.1 with
    | some e => (some e, v.setDir dir deleted.2)
    | none =>
      let v₁ := (v.setDir dir deleted.2).indexRemoveOwn ino i
      let v₂ := v₁.put ino { i with nlink := 0 }
      (none, (v₂.touchDir dir m).settle ino)

end Remove

/-! ## Renames -/

/-- The arguments of `sys_rename`, with the directories looked up. -/
structure Renaming where
  dirOld : Ino
  oldpath : Name
  dirNew : Ino
  newpath : Name
  env : Rename.Env
  /-- The size of `dir_new` afterwards. -/
  dirSize : UInt32
  time : Moment

section Rename

variable (v : Vol) (r : Renaming)

variable (ino : Ino) (i : Inode) (target : Option Target)

/-- The call of `agfs_rename`. -/
def Renaming.call : Rename.Call :=
  ⟨ino, r.dirOld, target, r.dirNew, r.oldpath, r.newpath⟩

/-- `agfs_rename` from `agfs_inode_set_name` on. -/
def moveInode : Result :=
  let moved := Rename.moveEntry (r.call ino none) r.env v.dirs
  match r.env.setName with
  | some e => (some e, v)
  | none =>
    let i' := i.setName r.newpath
    let v₁ := { v.put ino i' with dirs := moved.final v.dirs }
    match moved.errno with
    | some e => (some e, v₁)
    | none =>
      let v₂ := (v₁.indexRemove ino i' r.oldpath).indexAdd ino i' r.newpath
      if r.dirNew = r.dirOld then (none, v₂.resize r.dirOld r.dirSize r.time)
      else (none, (v₂.touchDir r.dirOld r.time).resize r.dirNew r.dirSize r.time)

/-- The inode that loses its name to the renamed one. -/
def unlinkTarget (t : Target) : Vol :=
  match v.inodes t.ino with
  | none => v
  | some i =>
    (v.indexRemoveOwn t.ino i).put t.ino
      { i with nlink := if t.isDir then 0 else i.nlink - 1 }

/-- `agfs_rename`, and the `iput` of the target. -/
def agfsRename : Result :=
  if r.env.readOnly then (some .erofs, v)
  else match target with
    | none => moveInode v r ino i
    | some t =>
      if t.isDir && !dirEmpty r.env.unread (v.dirs t.ino) then (some .enotempty, v)
      else
        let deleted := Rename.deleteTarget r.env (v.dirs r.dirNew) r.newpath t
        let v₁ := v.setDir r.dirNew deleted.2
        match deleted.1 with
        | some e => (some e, v₁)
        | none =>
          let moved := moveInode (unlinkTarget v₁ t) r ino i
          (moved.1, moved.2.settle t.ino)

def isDot (name : Name) : Bool := name = "." ∨ name = ".."

/-- `sys_rename`, or nothing if the call never comes back: `agfs_inode_set_name` locks the inode,
and the directories are locked already. -/
def sysRename : Option Result :=
  match v.lookup r.dirOld r.oldpath with
  | none => some (some .enoent, v)
  | some (ino, i) =>
    if isDot r.oldpath || isDot r.newpath then some (some .einval, v)
    else match v.lookup r.dirNew r.newpath with
      | none =>
        if ino = r.dirOld ∨ ino = r.dirNew then none else some (agfsRename v r ino i none)
      | some (t, j) =>
        if i.kind = .regular ∧ j.isDir then some (some .eisdir, v)
        else if i.isDir ∧ !j.isDir then some (some .enotdir, v)
        else if ino = t then some (none, v)
        else if ino = r.dirOld ∨ ino = r.dirNew then none
        else some (agfsRename v r ino i (some ⟨t, j.isDir⟩))

end Rename

/-! ## The machine -/

inductive Label where
  | create (m : Making)
  | mknod (kind : Kind) (m : Making)
  | symlink (target : UInt32) (data undo : Option Errno) (m : Making)
  | mkdir (m : Making)
  | link (dirOld : Ino) (oldname : Name) (m : Making)
  | unlink (dir : Ino) (name : Name) (failure : Option Errno) (time : Moment)
  | rmdir (dir : Ino) (name : Name) (failure : Option Errno) (unread : Nat) (time : Moment)
  | rename (r : Renaming)
  /-- `agfs_file_write`. -/
  | write (ino : Ino) (off n : Nat) (time : Moment)
  /-- `agfs_truncate`. -/
  | truncate (ino : Ino) (length : UInt32) (time : Moment)
  /-- `sys_utimensat` with a new modification time. -/
  | utimensat (ino : Ino) (mtime : Nat)
  | openFile (dir : Ino) (name : Name)
  | closeFile (ino : Ino)
  /-- The inode is written, by `iput` or by a `sync`. -/
  | flush (ino : Ino)
  /-- The inode leaves the cache and comes back. -/
  | evict (ino : Ino)

/-- A call in a directory that is there, for a block that is free. -/
def Making.allowed (v : Vol) (m : Making) : Bool := v.isDir m.dir && (v.inodes m.ino).isNone

/-- What a call returns, and what it leaves; `none` where it cannot be made, or hangs. -/
def call (v : Vol) : Label → Option Result
  | .create m => if m.allowed v then some (create v m) else none
  | .mknod kind m => if m.allowed v then some (mknod v m kind) else none
  | .symlink target data undo m =>
    if m.allowed v then some (symlink v m target data undo) else none
  | .mkdir m => if m.allowed v then some (mkdir v m) else none
  | .link dirOld oldname m =>
    if v.isDir m.dir then (v.lookup dirOld oldname).map fun found => link v m found.1 found.2
    else none
  | .unlink dir name failure time =>
    (v.lookup dir name).map fun found => unlink v dir name found.1 found.2 failure time
  | .rmdir dir name failure unread time =>
    (v.lookup dir name).map fun found => rmdir v dir found.1 found.2 failure unread time
  | .rename r => if v.isDir r.dirNew then sysRename v r else none
  | .write ino off n time =>
    (v.inodes ino).map fun i =>
      (none, v.resize ino (if i.size.toNat < off + n then .ofNat (off + n) else i.size) time)
  | .truncate ino length time =>
    (v.inodes ino).map fun _ => (none, v.resize ino length time)
  | .utimensat ino mtime =>
    (v.inodes ino).map fun i => (none, v.put ino { i with mtime := mtime })
  | .openFile dir name =>
    (v.lookup dir name).map fun found =>
      (none, v.put found.1 { found.2 with count := found.2.count + 1 })
  | .closeFile ino =>
    (v.inodes ino).bind fun i =>
      if i.count = 0 then none
      else some (none, (v.put ino { i with count := i.count - 1 }).settle ino)
  | .flush ino => (v.inodes ino).map fun i => (none, v.put ino i.write)
  | .evict ino =>
    (v.inodes ino).bind fun i =>
      if i.count = 0 ∧ i.nlink ≠ 0 then some (none, v.put ino i.reread) else none

/-- Calls, however they end. -/
def step (v : Vol) (l : Label) : Option Vol := (call v l).map (·.2)

/-- Calls that succeed. -/
def stepDone (v : Vol) (l : Label) : Option Vol :=
  (call v l).bind fun result => if result.1 = none then some result.2 else none

/-! ## What happens to the directories -/

/-- Every entry of `w` is one of `v`, or the new one. -/
def AddsOnly (v w : Rename.Volume) (dir : Ino) (name : Name) (ino : Ino) : Prop :=
  ∀ d n x, (w d).find n = some x → (v d).find n = some x ∨ d = dir ∧ n = name ∧ x = ino

/-- Every entry of `w` is one of `v`. -/
def AddsNothing (v w : Rename.Volume) : Prop := ∀ d n x, (w d).find n = some x → (v d).find n = some x

section Directories

variable {u v w : Rename.Volume} {dir dir' ino : Ino} {name : Name} {d' : Dir}

theorem AddsNothing.adds (nothing : AddsNothing v w) : AddsOnly v w dir name ino := by
  intro d n x found
  exact .inl (nothing d n x found)

theorem AddsOnly.after (first : AddsNothing u v) (next : AddsOnly v w dir name ino) :
    AddsOnly u w dir name ino := by
  intro d n x found
  rcases next d n x found with old | new
  · exact .inl (first d n x old)
  · exact .inr new

theorem set_adds (one : ∀ n x, d'.find n = some x → (v dir).find n = some x ∨ n = name ∧ x = ino) :
    AddsOnly v (v.set dir d') dir name ino := by
  intro d n x found
  by_cases here : d = dir
  · subst here
    rw [Rename.Volume.set, update_self] at found
    rcases one n x found with old | new
    · exact .inl old
    · exact .inr ⟨rfl, new⟩
  · rw [Rename.Volume.set, update_of_ne here] at found
    exact .inl found

theorem set_addsNothing (fewer : ∀ n x, d'.find n = some x → (v dir).find n = some x) :
    AddsNothing v (v.set dir d') := by
  intro d n x found
  by_cases here : d = dir
  · subst here
    rw [Rename.Volume.set, update_self] at found
    exact fewer n x found
  · rwa [Rename.Volume.set, update_of_ne here] at found

theorem insert_adds (fate : Fate) (v : Rename.Volume) (dir : Ino) (name : Name) (ino : Ino) :
    AddsOnly v (v.set dir (btreeInsert fate (v dir) name ino).2) dir name ino :=
  set_adds fun _ _ found => find_of_btreeInsert found

theorem erase_adds (v : Rename.Volume) (dir : Ino) (name : Name) :
    AddsNothing v (v.set dir ((v dir).erase name)) := by
  apply set_addsNothing
  intro n x found
  rw [Dir.find_erase] at found
  split at found
  · cases found
  · exact found

theorem delete_adds (failure : Option Errno) (v : Rename.Volume) (dir : Ino) (name : Name) :
    AddsNothing v (v.set dir (btreeDelete failure (v dir) name).2) :=
  set_addsNothing fun _ _ found => find_of_btreeDelete found

theorem deleteIno_adds (failure : Option Errno) (v : Rename.Volume) (dir ino : Ino) :
    AddsNothing v (v.set dir (btreeDeleteIno failure (v dir) ino).2) :=
  set_addsNothing fun _ _ found => find_of_btreeDeleteIno found

theorem find_newDir (ino parent : Ino) (n : Name) :
    (newDir ino parent).find n =
      if n = ".." then some parent else if n = "." then some ino else none := by
  rw [newDir, Dir.find_insert, Dir.find_insert]
  rfl

theorem newDir_plain (ino parent : Ino) {n : Name} (plain : isDot n = false) :
    (newDir ino parent).find n = none := by
  have other : n ≠ "." ∧ n ≠ ".." := by simpa [isDot] using plain
  rw [find_newDir, if_neg other.2, if_neg other.1]

theorem deleteTarget_adds (env : Rename.Env) (v : Rename.Volume) (dir : Ino) (name : Name)
    (t : Target) : AddsNothing v (v.set dir (deleteTarget env (v dir) name t).2) := by
  unfold deleteTarget
  split
  · exact deleteIno_adds _ v dir _
  · exact delete_adds _ v dir _

/-- How `moveEntry` can end. -/
theorem moveEntry_cases (call : Rename.Call) (env : Rename.Env) (v : Rename.Volume) :
    let moved := moveEntry call env v
    let deleted := btreeDelete env.deleteOld (v call.dirOld) call.oldpath
    let v₁ := v.set call.dirOld deleted.2
    let inserted := btreeInsert env.insertNew (v₁ call.dirNew) call.newpath call.iOld
    let v₂ := v₁.set call.dirNew inserted.2
    let back := btreeInsert env.insertBack (v₂ call.dirOld) call.oldpath call.iOld
    moved.errno ≠ none ∧ (moved.final v = v ∨ moved.final v = v₁) ∨
      moved.errno = none ∧ deleted.1 = none ∧ inserted.1 = none ∧ moved.final v = v₂ ∨
      moved.errno ≠ none ∧ deleted.1 = none ∧ inserted.1 ≠ none ∧
        moved.final v = v₂.set call.dirOld back.2 := by
  simp only [moveEntry]
  cases env.setName with
  | some e => exact .inl ⟨by simp, .inl rfl⟩
  | none =>
    cases (btreeDelete env.deleteOld (v call.dirOld) call.oldpath).1 with
    | some e => exact .inl ⟨by simp, .inr rfl⟩
    | none =>
      simp only
      split
      · rename_i fine
        exact .inr (.inl ⟨rfl, trivial, fine, rfl⟩)
      · rename_i failed
        exact .inr (.inr ⟨by simp, trivial, by simp [failed], rfl⟩)

variable {call : Rename.Call} {env : Rename.Env}

/-- A move that succeeds has taken the old name out and put the new one in. -/
theorem moveEntry_done (done : (moveEntry call env v).errno = none) :
    let v₁ := v.set call.dirOld ((v call.dirOld).erase call.oldpath)
    let inserted := btreeInsert env.insertNew (v₁ call.dirNew) call.newpath call.iOld
    inserted.1 = none ∧ (moveEntry call env v).final v = v₁.set call.dirNew inserted.2 := by
  rcases moveEntry_cases call env v with ⟨failed, -⟩ | ⟨-, deleted, inserted, final⟩ | ⟨failed, -⟩
  · exact absurd done failed
  · rw [btreeDelete_done deleted] at inserted final
    exact ⟨inserted, final⟩
  · exact absurd done failed

theorem moveEntry_adds (old : (moveEntry call env v).errno ≠ none →
      (v call.dirOld).find call.oldpath = some call.iOld) :
    AddsOnly v ((moveEntry call env v).final v) call.dirNew call.newpath call.iOld := by
  have deletes := delete_adds env.deleteOld v call.dirOld call.oldpath
  have inserts := AddsOnly.after deletes
    (insert_adds env.insertNew _ call.dirNew call.newpath call.iOld)
  rcases moveEntry_cases call env v with
    ⟨-, same | less⟩ | ⟨-, -, -, final⟩ | ⟨failed, -, -, final⟩
  · rw [same]
    exact fun d n x found => .inl found
  · rw [less]
    exact deletes.adds
  · rw [final]
    exact inserts
  · rw [final]
    intro d n x found
    rcases insert_adds _ _ _ _ _ d n x found with same | ⟨rfl, rfl, rfl⟩
    · exact inserts d n x same
    · exact .inl (old failed)

end Directories

/-! ## What the parts of a call leave alone -/

/-- What decides about an inode's life: whether it is a directory, and its links. -/
def Vol.shape (v : Vol) (ino : Ino) : Option (Bool × Nat) :=
  (v.inodes ino).map fun i => (i.isDir, i.nlink)

open Vol

section Parts

variable (v : Vol) (ino : Ino) {j : Inode} {t : Target}

variable (i : Inode) (name : Name) (x : Ino)

@[simp] theorem shape_put :
    (v.put ino i).shape x = if x = ino then some (i.isDir, i.nlink) else v.shape x := by
  by_cases same : x = ino
  · subst same
    simp [shape, put]
  · simp [shape, put, same]

@[simp] theorem shape_setDir (dir : Ino) (d : Dir) (x : Ino) : (v.setDir dir d).shape x = v.shape x :=
  rfl

@[simp] theorem shape_indexAdd : (v.indexAdd ino i name).shape x = v.shape x := rfl

@[simp] theorem shape_indexRemove : (v.indexRemove ino i name).shape x = v.shape x := rfl

theorem put_put (i i' : Inode) : (v.put ino i).put ino i' = v.put ino i' := by
  simp [put]

theorem setDir_put (dir : Ino) (d : Dir) :
    (v.put ino i).setDir dir d = (v.setDir dir d).put ino i := rfl

variable (size : UInt32) (m : Moment)

theorem resize_cases : v.inodes ino = none ∧ v.resize ino size m = v ∨
      ∃ i i', v.inodes ino = some i ∧ i'.isDir = i.isDir ∧ i'.nlink = i.nlink ∧
        (v.resize ino size m).root = v.root ∧ (v.resize ino size m).dirs = v.dirs ∧
        (v.resize ino size m).inodes = update v.inodes ino (some i') := by
  cases here : v.inodes ino with
  | none => exact .inl ⟨rfl, by rw [resize, here]⟩
  | some i =>
    right
    simp only [resize, here, indexResize]
    split
    · exact ⟨i, Inode.touch { i with size := size } m, rfl, rfl, rfl, rfl, rfl, rfl⟩
    · refine ⟨i, (Inode.touch { i with size := size } m).write, rfl, rfl, rfl, rfl, rfl, ?_⟩
      simp [put]

@[simp] theorem resize_root : (v.resize ino size m).root = v.root := by
  rcases resize_cases v ino size m with ⟨-, same⟩ | ⟨_, _, -, -, -, root, -⟩
  · rw [same]
  · exact root

@[simp] theorem resize_dirs : (v.resize ino size m).dirs = v.dirs := by
  rcases resize_cases v ino size m with ⟨-, same⟩ | ⟨_, _, -, -, -, -, dirs, -⟩
  · rw [same]
  · exact dirs

@[simp] theorem resize_shape (x : Ino) : (v.resize ino size m).shape x = v.shape x := by
  rcases resize_cases v ino size m with ⟨-, same⟩ | ⟨i, i', here, isDir, nlink, -, -, inodes⟩
  · rw [same]
  · by_cases own : x = ino
    · subst own
      simp [shape, inodes, here, isDir, nlink]
    · simp [shape, inodes, own]

@[simp] theorem indexRemoveOwn_inodes : (v.indexRemoveOwn ino i).inodes = v.inodes := by
  unfold indexRemoveOwn
  split <;> rfl

@[simp] theorem indexRemoveOwn_dirs : (v.indexRemoveOwn ino i).dirs = v.dirs := by
  unfold indexRemoveOwn
  split <;> rfl

@[simp] theorem indexRemoveOwn_root : (v.indexRemoveOwn ino i).root = v.root := by
  unfold indexRemoveOwn
  split <;> rfl

@[simp] theorem shape_indexRemoveOwn : (v.indexRemoveOwn ino i).shape x = v.shape x := by
  simp [shape]

@[simp] theorem unlinkTarget_root (t : Target) : (unlinkTarget v t).root = v.root := by
  unfold unlinkTarget
  split
  · rfl
  · exact indexRemoveOwn_root _ _ _

@[simp] theorem unlinkTarget_dirs (t : Target) : (unlinkTarget v t).dirs = v.dirs := by
  unfold unlinkTarget
  split
  · rfl
  · exact indexRemoveOwn_dirs _ _ _

theorem unlinkTarget_inodes {v : Vol} (here : v.inodes t.ino = some j) :
    (unlinkTarget v t).inodes = update v.inodes t.ino
      (some { j with nlink := if t.isDir then 0 else j.nlink - 1 }) := by
  simp [unlinkTarget, here, put, indexRemoveOwn_inodes]

theorem unlinkTarget_shape {v : Vol} (here : v.inodes t.ino = some j) (x : Ino) :
    (unlinkTarget v t).shape x =
      if x = t.ino then some (j.isDir, if t.isDir then 0 else j.nlink - 1) else v.shape x := by
  rw [unlinkTarget, here]
  simp only [shape_put, shape_indexRemoveOwn]
  rfl

theorem settle_adds : AddsNothing v.dirs (v.settle ino).dirs := by
  unfold settle
  split
  · exact fun _ _ _ found => found
  split
  · apply set_addsNothing
    intro n x found
    cases found
  · exact fun _ _ _ found => found

@[simp] theorem settle_root : (v.settle ino).root = v.root := by
  unfold settle
  split
  · rfl
  · split <;> rfl

end Parts

/-! ## Calls that succeed -/

theorem lookup_eq_some {v : Vol} {dir ino : Ino} {name : Name} {i : Inode}
    (found : v.lookup dir name = some (ino, i)) :
    (v.dirs dir).find name = some ino ∧ v.inodes ino = some i := by
  simp only [lookup, Option.bind_eq_some_iff, Option.map_eq_some_iff] at found
  obtain ⟨x, entry, j, inode, same⟩ := found
  cases same
  exact ⟨entry, inode⟩

section Done

variable {v : Vol} {m : Making} {result : Result} {dir : Ino} {failure : Option Errno} {name : Name}
  {t : Moment} {w : Vol}

theorem btreeInsert_named {fate : Fate} {d : Dir} {ino : Ino}
    (done : (btreeInsert fate d name ino).1 = none) : name ≠ "" := by
  rintro rfl
  simp [btreeInsert] at done

theorem Making.allowed_iff : m.allowed v = true ↔ v.isDir m.dir = true ∧ v.inodes m.ino = none := by
  simp [Making.allowed]

/-- A call that makes an entry, with what it was allowed to rely on. -/
theorem Making.of_allowed {result' : Result}
    (called : (if m.allowed v then some result' else none) = some result) :
    v.isDir m.dir = true ∧ v.inodes m.ino = none ∧ result' = result := by
  simpa [Making.allowed_iff, and_assoc] using called

theorem Making.of_done (called : (if m.allowed v then some result else none) = some (none, w)) :
    v.isDir m.dir = true ∧ v.inodes m.ino = none ∧ result.1 = none ∧ result.2 = w := by
  obtain ⟨there, free, rfl⟩ := Making.of_allowed called
  exact ⟨there, free, rfl, rfl⟩

theorem makeNode_done {kind : Kind} {size : UInt32} {count : Nat}
    (done : (makeNode v m kind size count).1 = none) :
    let inserted := btreeInsert m.insert (v.dirs m.dir) m.name m.ino
    let i := (freshInode kind 1 size count m.time).setName m.name
    (v.dirs m.dir).find m.name = none ∧ inserted.1 = none ∧
      (makeNode v m kind size count).2 =
        (((v.setDir m.dir inserted.2).put m.ino i).indexAdd m.ino i m.name).resize m.dir m.dirSize
          m.time := by
  simp only [makeNode] at done ⊢
  split at done
  · cases done
  rename_i absent
  rw [if_neg absent]
  split at done
  · cases done
  · rename_i fine
    rw [fine]
    exact ⟨by simpa using absent, rfl, rfl⟩

theorem mkdir_done (done : (mkdir v m).1 = none) :
    let i := freshInode .directory 2 2048 0 m.time
    let v₁ := (v.put m.ino i).setDir m.ino (newDir m.ino m.dir)
    let inserted := btreeInsert m.insert (v₁.dirs m.dir) m.name m.ino
    (v.dirs m.dir).find m.name = none ∧ inserted.1 = none ∧
      (mkdir v m).2 =
        (((v₁.setDir m.dir inserted.2).put m.ino (i.setName m.name)).indexAdd m.ino
          (i.setName m.name) m.name).resize m.dir m.dirSize m.time := by
  simp only [mkdir] at done ⊢
  split at done
  · cases done
  rename_i absent
  rw [if_neg absent]
  split at done
  · cases done
  · rename_i fine
    rw [fine]
    exact ⟨by simpa using absent, rfl, rfl⟩

theorem link_done {ino : Ino} {i : Inode} (done : (link v m ino i).1 = none) :
    let inserted := btreeInsert m.insert (v.dirs m.dir) m.name ino
    i.isDir = false ∧ i.nlink ≠ linkMax ∧ (v.dirs m.dir).find m.name = none ∧ inserted.1 = none ∧
      (link v m ino i).2 =
        ((v.setDir m.dir inserted.2).put ino i.addLink).resize m.dir m.dirSize m.time := by
  simp only [link] at done ⊢
  iterate 3
    split at done
    · cases done
  rename_i noDir room absent
  rw [if_neg noDir, if_neg room, if_neg absent]
  split at done
  · cases done
  · rename_i fine
    rw [fine]
    exact ⟨by simpa using noDir, room, by simpa using absent, rfl, rfl⟩

theorem unlink_done {ino : Ino} {i : Inode} (done : (unlink v dir name ino i failure t).1 = none) :
    let deleted := btreeDelete failure (v.dirs dir) name
    i.isDir = false ∧ deleted.1 = none ∧
      (unlink v dir name ino i failure t).2 =
        ((((v.setDir dir deleted.2).indexRemove ino i name).put ino i.dropLink).touchDir dir
          t).settle ino := by
  simp only [unlink] at done ⊢
  split at done
  · cases done
  rename_i noDir
  rw [if_neg noDir]
  split at done
  · cases done
  · rename_i fine
    rw [fine]
    exact ⟨by simpa using noDir, rfl, rfl⟩

theorem rmdir_done {ino : Ino} {i : Inode} {unread : Nat}
    (done : (rmdir v dir ino i failure unread t).1 = none) :
    let deleted := btreeDeleteIno failure (v.dirs dir) ino
    i.isDir = true ∧ ino ≠ v.root ∧ ino ≠ dir ∧ dirEmpty unread (v.dirs ino) = true ∧
      deleted.1 = none ∧
      (rmdir v dir ino i failure unread t).2 =
        ((((v.setDir dir deleted.2).indexRemoveOwn ino i).put ino
          { i with nlink := 0 }).touchDir dir t).settle ino := by
  simp only [rmdir] at done ⊢
  iterate 4
    split at done
    · cases done
  rename_i isDir notRoot notDir empty
  rw [if_neg isDir, if_neg notRoot, if_neg notDir, if_neg empty]
  split at done
  · cases done
  · rename_i fine
    rw [fine]
    exact ⟨by simpa using isDir, notRoot, notDir, by simpa using empty, rfl, rfl⟩

variable {r : Renaming} {ino : Ino} {i : Inode}

theorem moveInode_done (done : (moveInode v r ino i).1 = none) :
    let moved := moveEntry (r.call ino none) r.env v.dirs
    let i' := i.setName r.newpath
    let v₁ := ({ v.put ino i' with dirs := moved.final v.dirs }.indexRemove ino i'
      r.oldpath).indexAdd ino i' r.newpath
    moved.errno = none ∧
      (moveInode v r ino i).2 =
        if r.dirNew = r.dirOld then v₁.resize r.dirOld r.dirSize r.time
        else (v₁.touchDir r.dirOld r.time).resize r.dirNew r.dirSize r.time := by
  simp only [moveInode] at done ⊢
  split at done
  · cases done
  split at done
  · cases done
  rename_i fine
  rw [fine]
  refine ⟨rfl, ?_⟩
  split <;> rfl

abbrev Renaming.deleted (r : Renaming) (v : Vol) (t : Target) : Option Errno × Dir :=
  Rename.deleteTarget r.env (v.dirs r.dirNew) r.newpath t

theorem agfsRename_done {t : Target} (done : (agfsRename v r ino i (some t)).1 = none) :
    let deleted := r.deleted v t
    let moved := moveInode (unlinkTarget (v.setDir r.dirNew deleted.2) t) r ino i
    (t.isDir = true → dirEmpty r.env.unread (v.dirs t.ino) = true) ∧ deleted.1 = none ∧
      moved.1 = none ∧ (agfsRename v r ino i (some t)).2 = moved.2.settle t.ino := by
  simp only [agfsRename] at done ⊢
  split at done
  · cases done
  rename_i writable
  rw [if_neg writable]
  split at done
  · cases done
  rename_i empty
  rw [if_neg empty]
  split at done
  · cases done
  rename_i fine
  rw [fine]
  refine ⟨?_, rfl, done, rfl⟩
  intro isDir
  simpa [isDir] using empty

theorem agfsRename_none_done (done : (agfsRename v r ino i none).1 = none) :
    (moveInode v r ino i).1 = none ∧ (agfsRename v r ino i none).2 = (moveInode v r ino i).2 := by
  simp only [agfsRename] at done ⊢
  split at done
  · cases done
  · rename_i writable
    rw [if_neg writable]
    exact ⟨done, rfl⟩

/-- A rename that comes back has done nothing, or has asked the file system. -/
theorem sysRename_cases (called : sysRename v r = some result) :
    result.2 = v ∨ ∃ ino i, v.lookup r.dirOld r.oldpath = some (ino, i) ∧ isDot r.oldpath = false ∧
      isDot r.newpath = false ∧ ino ≠ r.dirOld ∧ ino ≠ r.dirNew ∧
      (v.lookup r.dirNew r.newpath = none ∧ agfsRename v r ino i none = result ∨
        ∃ t j, v.lookup r.dirNew r.newpath = some (t, j) ∧ ino ≠ t ∧
          (i.isDir = true → j.isDir = true) ∧
          agfsRename v r ino i (some ⟨t, j.isDir⟩) = result) := by
  have unchanged : ∀ {errno : Option Errno}, some (errno, v) = some result → result.2 = v := by
    intro errno same
    cases same
    rfl
  unfold sysRename at called
  cases found : v.lookup r.dirOld r.oldpath with
  | none =>
    rw [found] at called
    exact .inl (unchanged called)
  | some entry =>
    obtain ⟨ino, i⟩ := entry
    rw [found] at called
    simp only at called
    split at called
    · exact .inl (unchanged called)
    rename_i plain
    simp only [Bool.or_eq_true, not_or, Bool.not_eq_true] at plain
    cases target : v.lookup r.dirNew r.newpath with
    | none =>
      rw [target] at called
      simp only at called
      split at called
      · cases called
      rename_i apart
      rw [not_or] at apart
      exact .inr ⟨ino, i, rfl, plain.1, plain.2, apart.1, apart.2,
        .inl ⟨rfl, Option.some.inj called⟩⟩
    | some entry =>
      obtain ⟨t, j⟩ := entry
      rw [target] at called
      simp only at called
      iterate 2
        split at called
        · exact .inl (unchanged called)
      rename_i dirs
      split at called
      · exact .inl (unchanged called)
      rename_i other
      split at called
      · cases called
      rename_i apart
      rw [not_or] at apart
      refine .inr ⟨ino, i, rfl, plain.1, plain.2, apart.1, apart.2,
        .inr ⟨t, j, rfl, other, ?_, Option.some.inj called⟩⟩
      intro isDir
      simpa [isDir] using dirs

theorem stepDone_eq_some {l : Label} (taken : stepDone v l = some w) :
    call v l = some (none, w) := by
  simp only [stepDone, Option.bind_eq_some_iff] at taken
  obtain ⟨⟨errno, u⟩, called, done⟩ := taken
  split at done
  · rename_i fine
    cases done
    rw [called]
    exact congrArg some (Prod.ext fine rfl)
  · cases done

end Done

/-! ## A volume to start from -/

def noon : Moment := ⟨43200, 7, by decide, by decide⟩

/-- A volume with an empty root directory in block 2, and with empty indices. -/
def emptyVol : Vol where
  root := 2
  inodes ino := if ino = 2 then some (freshInode .directory 2 2048 1 noon) else none
  dirs dir := if dir = 2 then newDir 2 2 else ∅
  nameIndex := []
  sizeIndex := []
  timeIndex := []

theorem emptyVol_plain {d : Ino} {n : Name} (plain : isDot n = false) :
    (emptyVol.dirs d).find n = none := by
  by_cases root : d = 2
  · simp [emptyVol, root, newDir_plain _ _ plain]
  · simp only [emptyVol, if_neg root]
    rfl

def making (dir : Ino) (name : Name) (ino : Ino) : Making := ⟨dir, name, ino, .done, 2048, noon⟩

/-- No step of a rename fails. -/
def calm : Rename.Env := ⟨false, 0, none, none, none, .done, .done, fun _ => false, fun _ => false,
  fun _ => false⟩

end Argentum.Agfs.Namespace
