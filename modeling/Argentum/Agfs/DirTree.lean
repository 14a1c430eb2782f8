/-
# Agfs.DirTree — the directories of a volume form a tree

`DirectoryTree`: the directories that were not removed hang from the root, each but the root
has one name on the whole volume, in the directory that its `..` leads to, and none is its own
ancestor.

`directory_tree` says that calls that succeed keep it so (`Lib.RootedTree` has the rules: `mkdir`
adds a leaf, `rmdir` and a rename onto a directory take one away), if a directory is renamed
in its own directory only, if no directory is made in one that was removed, and if no name is
lost or left over. `agfs_rename` never looks at `..` and `sys_rename` never asks whether the
target lies below the source: `directory_cycle` moves a directory below itself.
-/
import Argentum.Lib.RootedTree
import Argentum.Agfs.LinkCount

namespace Argentum.Agfs.DirTree

open Relation Lib Lib.Machine Agfs.Namespace Agfs.LinkCount Vol Rename Making Dir
open Option (map_eq_some_iff)

/-! ## Trees -/

/-- A directory that has not been removed. -/
def Live (v : Vol) (d : Ino) : Prop := ∃ nlink, v.shape d = some (true, nlink) ∧ nlink ≠ 0

/-- `p` holds `d` under some name. -/
def Edge (v : Vol) (p d : Ino) : Prop :=
  Live v p ∧ Live v d ∧ ∃ n, isDot n = false ∧ (v.dirs p).find n = some d

/-- The live directories form a tree, and `..` leads up. -/
structure DirectoryTree (v : Vol) : Prop where
  root : Live v v.root ∧ names v.dirs v.root = ∅ ∧ (v.dirs v.root).find ".." = some v.root
  reach : ∀ d, Live v d → ReflTransGen (Edge v) v.root d
  acyclic : ∀ d, ¬ TransGen (Edge v) d d
  parent : ∀ d, Live v d → d ≠ v.root →
    ∃ p n, Live v p ∧ names v.dirs d = {(p, n)} ∧ (v.dirs d).find ".." = some p

/-- A volume in order, as the calls leave it. -/
structure WellFormed (v : Vol) : Prop where
  counted : Counted v
  tree : IsTree (Live v) (Edge v) v.root
  unnamed : names v.dirs v.root = ∅
  dot : ∀ d, Live v d → (v.dirs d).find "." = some d
  up : ∀ p d, Edge v p d → (v.dirs d).find ".." = some p
  rootUp : (v.dirs v.root).find ".." = some v.root

section Tree

variable {v : Vol} {d : Ino} {i : Inode} {n : Name} {p : Ino}

theorem live_iff (here : v.inodes d = some i) : Live v d ↔ i.isDir = true ∧ i.nlink ≠ 0 := by
  simp [Live, shape, here]

theorem not_live_of_free (free : v.inodes d = none) : ¬ Live v d := by
  simp [Live, shape, free]

theorem not_live_of_file (here : v.inodes d = some i) (file : i.isDir = false) : ¬ Live v d := by
  simp [live_iff here, file]

theorem live_of_name (counted : Counted v) (here : v.inodes d = some i) (isDir : i.isDir = true)
    (plain : isDot n = false) (found : (v.dirs p).find n = some d) : Live v d := by
  have member : (p, n) ∈ names v.dirs d := ⟨plain, found⟩
  have some := one_le_of_encard_le member (counted.named d)
  rw [live_iff here]
  refine ⟨isDir, ?_⟩
  intro unlinked
  simp [shape, here, isDir, unlinked, allowance] at some

/-- A directory has one name. -/
theorem names_eq_singleton (counted : Counted v) (live : Live v d) {p : Ino × Name}
    (member : p ∈ names v.dirs d) : names v.dirs d = {p} := by
  obtain ⟨nlink, shape, -⟩ := live
  have bound : (names v.dirs d).encard ≤ 1 := by
    calc (names v.dirs d).encard ≤ allowance (v.shape d) := counted.named d
      _ ≤ 1 := by
        rw [shape]
        exact_mod_cast min_le_right nlink 1
  rw [Set.encard_le_one_iff_subsingleton] at bound
  exact bound.eq_singleton_of_mem member

variable (wf : WellFormed v)

include wf

theorem WellFormed.directoryTree : DirectoryTree v := by
  refine ⟨⟨wf.tree.root, wf.unnamed, wf.rootUp⟩, wf.tree.reach, wf.tree.acyclic, ?_⟩
  intro d live other
  obtain ⟨p, edge⟩ := wf.tree.parent live other
  obtain ⟨above, -, n, plain, found⟩ := edge
  have member : (p, n) ∈ names v.dirs d := ⟨plain, found⟩
  exact ⟨p, n, above, names_eq_singleton wf.counted live member,
    wf.up p d ⟨above, live, n, plain, found⟩⟩

/-- Every live directory has `..`. -/
theorem WellFormed.hasUp (live : Live v d) : ∃ p, (v.dirs d).find ".." = some p := by
  by_cases root : d = v.root
  · exact ⟨v.root, root ▸ wf.rootUp⟩
  · obtain ⟨p, edge⟩ := wf.tree.parent live root
    exact ⟨p, wf.up p d edge⟩

theorem WellFormed.rootUnnamed (plain : isDot n = false) : (v.dirs p).find n ≠ some v.root := by
  intro found
  have member : (p, n) ∈ names v.dirs v.root := ⟨plain, found⟩
  rw [wf.unnamed] at member
  exact member

end Tree

/-! ## Changes -/

/-- The live directories and the entries between them are the same. -/
structure Keeps (v w : Vol) : Prop where
  root : w.root = v.root
  live : ∀ d, Live w d ↔ Live v d
  entries : ∀ p n d, Live v p → Live v d → ((w.dirs p).find n = some d ↔ (v.dirs p).find n = some d)
  rootNames : names w.dirs v.root ⊆ names v.dirs v.root

/-- The entries for other inodes than `ino` are the same. -/
def SameBut (ino : Ino) (dirs dirs' : Rename.Volume) : Prop :=
  ∀ p n x, x ≠ ino → ((dirs' p).find n = some x ↔ (dirs p).find n = some x)

section Changes

variable {v w : Vol} {dirs dirs' dirs'' : Rename.Volume} {dir ino : Ino} {name : Name}

theorem SameBut.trans (first : SameBut ino dirs dirs') (next : SameBut ino dirs' dirs'') :
    SameBut ino dirs dirs'' :=
  fun p n x other => (next p n x other).trans (first p n x other)

theorem SameBut.names (same : SameBut ino dirs dirs') {x : Ino} (other : x ≠ ino) :
    names dirs' x ⊆ names dirs x := by
  rintro ⟨p, n⟩ ⟨plain, found⟩
  exact ⟨plain, (same p n x other).mp found⟩

/-- The names that are changed in one directory lead to `ino`, if they lead anywhere. -/
theorem set_sameBut {d : Dir}
    (same : ∀ n x, x ≠ ino → (d.find n = some x ↔ (dirs dir).find n = some x)) :
    SameBut ino dirs (dirs.set dir d) := by
  intro p n x other
  by_cases here : p = dir
  · subst here
    rw [Rename.Volume.set, Function.update_self]
    exact same n x other
  · rw [Rename.Volume.set, Function.update_of_ne here]

theorem insert_sameBut {fate : Fate} (done : (btreeInsert fate (dirs dir) name ino).1 = none)
    (whole : Whole fate (dirs dir) name) :
    SameBut ino dirs (dirs.set dir (btreeInsert fate (dirs dir) name ino).2) := by
  obtain ⟨absent, find⟩ := btreeInsert_done done whole
  apply set_sameBut
  intro n x other
  rw [find]
  split
  · rename_i new
    subst new
    simp [absent, other.symm]
  · rfl

theorem erase_sameBut (found : (dirs dir).find name = some ino) :
    SameBut ino dirs (dirs.set dir ((dirs dir).erase name)) := by
  apply set_sameBut
  intro n x other
  rw [find_erase]
  split
  · rename_i gone
    subst gone
    simp [found, other.symm]
  · rfl

/-- A change to names of something that is no live directory. -/
theorem SameBut.keeps (same : SameBut ino v.dirs w.dirs) (rootLive : Live v v.root)
    (notLive : ¬ Live v ino) (root : w.root = v.root) (live : ∀ d, Live w d ↔ Live v d) :
    Keeps v w := by
  have other : ∀ {d}, Live v d → d ≠ ino := by
    rintro d alive rfl
    exact notLive alive
  exact ⟨root, live, fun p n d _ alive => same p n d (other alive), same.names (other rootLive)⟩

theorem WellFormed.keeps (wf : WellFormed v) (keeps : Keeps v w) (counted : Counted w) :
    WellFormed w := by
  have edges : ∀ p d, Edge w p d ↔ Edge v p d := by
    intro p d
    constructor
    · rintro ⟨above, below, n, plain, found⟩
      rw [keeps.live] at above below
      exact ⟨above, below, n, plain, (keeps.entries p n d above below).mp found⟩
    · rintro ⟨above, below, n, plain, found⟩
      exact ⟨(keeps.live p).mpr above, (keeps.live d).mpr below, n, plain,
        (keeps.entries p n d above below).mpr found⟩
  constructor
  · exact counted
  · rw [keeps.root]
    exact wf.tree.congr keeps.live edges
  · rw [keeps.root, ← Set.subset_empty_iff, ← wf.unnamed]
    exact keeps.rootNames
  · intro d live
    rw [keeps.live] at live
    exact (keeps.entries d "." d live live).mpr (wf.dot d live)
  · intro p d edge
    rw [edges] at edge
    exact (keeps.entries d ".." p edge.2.1 edge.1).mpr (wf.up p d edge)
  · rw [keeps.root]
    exact (keeps.entries _ _ _ wf.tree.root wf.tree.root).mpr wf.rootUp

theorem Keeps.trans {u : Vol} (first : Keeps u v) (next : Keeps v w) : Keeps u w := by
  constructor
  · exact next.root.trans first.root
  · exact fun d => (next.live d).trans (first.live d)
  · intro p n d holds held
    exact (next.entries p n d ((first.live p).mpr holds) ((first.live d).mpr held)).trans
      (first.entries p n d holds held)
  · have names := next.rootNames
    rw [first.root] at names
    exact names.trans first.rootNames

theorem resize_keeps (v : Vol) (ino : Ino) (size : UInt32) (m : Moment) :
    Keeps v (v.resize ino size m) := by
  constructor
  · exact resize_root v ino size m
  · intro d
    simp [Live, resize_shape]
  · intro p n d _ _
    rw [resize_dirs]
  · rw [resize_dirs]

/-- What is freed was not live. -/
theorem settle_keeps (v : Vol) (ino : Ino) : Keeps v (v.settle ino) := by
  have nothing := settle_adds v ino
  cases here : v.inodes ino with
  | none =>
    rw [settle, here]
    exact ⟨rfl, fun _ => .rfl, fun _ _ _ _ _ => .rfl, le_refl _⟩
  | some i =>
    simp only [settle, here] at nothing ⊢
    split
    · rename_i idle
      have notLive : ¬ Live v ino := by simp [live_iff here, idle.2]
      rw [if_pos idle] at nothing
      constructor
      · rfl
      · intro d
        by_cases same : d = ino
        · subst same
          exact iff_of_false (not_live_of_free (by simp [ifree])) notLive
        · simp [Live, shape, ifree, same]
      · intro p n d holds _
        have other : p ≠ ino := by
          rintro rfl
          exact notLive holds
        simp [ifree, Rename.Volume.set, other]
      · exact names_of_addsNothing nothing _
    · exact ⟨rfl, fun _ => .rfl, fun _ _ _ _ _ => .rfl, le_refl _⟩

theorem Keeps.resize (keeps : Keeps v w) (size : UInt32) (m : Moment) :
    Keeps v (w.resize ino size m) :=
  keeps.trans (resize_keeps w ino size m)

theorem Keeps.settle (keeps : Keeps v w) (ino : Ino) : Keeps v (w.settle ino) :=
  keeps.trans (settle_keeps w ino)

theorem live_put (v : Vol) (ino : Ino) {i : Inode} (own : i.isDir = true ∧ i.nlink ≠ 0 ↔ Live v ino)
    (d : Ino) : Live (v.put ino i) d ↔ Live v d := by
  by_cases same : d = ino
  · subst same
    rw [live_iff (i := i) (by simp [put]), own]
  · simp [Live, same]

variable (wf : WellFormed v)

include wf

/-- A new empty directory is a leaf. -/
theorem WellFormed.grown (above : Live v dir) (free : v.inodes ino = none)
    (plain : isDot name = false) (absent : (v.dirs dir).find name = none) (counted : Counted w)
    (root : w.root = v.root) (live : ∀ d, Live w d ↔ Live v d ∨ d = ino)
    (find : ∀ p n, (w.dirs p).find n = if p = ino then (newDir ino dir).find n
      else if p = dir ∧ n = name then some ino else (v.dirs p).find n) : WellFormed w := by
  have new := not_live_of_free free
  have old : ∀ {d}, Live v d → d ≠ ino := by
    rintro d alive rfl
    exact new alive
  have unnamed : ∀ {p n}, isDot n = false → (v.dirs p).find n ≠ some ino := by
    intro p n plain found
    exact wf.counted.noDangling p n ino plain found free
  -- entries of the directories that were there: the new one apart, they are the same
  have same : ∀ {p n d}, p ≠ ino → d ≠ ino →
      ((w.dirs p).find n = some d ↔ (v.dirs p).find n = some d) := by
    intro p n d there other
    rw [find, if_neg there]
    split
    · rename_i entry
      rw [entry.1, entry.2, absent]
      simp [other.symm]
    · rfl
  have made : (w.dirs dir).find name = some ino := by
    rw [find, if_neg (old above), if_pos ⟨rfl, rfl⟩]
  have edges : ∀ p d, Edge w p d ↔ Edge v p d ∨ p = dir ∧ d = ino := by
    intro p d
    constructor
    · rintro ⟨holds, held, n, plain, found⟩
      have there : p ≠ ino := by
        rintro rfl
        rw [find, if_pos rfl, newDir_plain _ _ plain] at found
        cases found
      have holds := ((live p).mp holds).resolve_right there
      by_cases child : d = ino
      · subst child
        rw [find, if_neg there] at found
        split at found
        · rename_i entry
          exact .inr ⟨entry.1, rfl⟩
        · exact absurd found (unnamed plain)
      · have held := ((live d).mp held).resolve_right child
        exact .inl ⟨holds, held, n, plain, (same there child).mp found⟩
    · rintro (⟨holds, held, n, plain, found⟩ | ⟨rfl, rfl⟩)
      · exact ⟨(live p).mpr (.inl holds), (live d).mpr (.inl held), n, plain,
          (same (old holds) (old held)).mpr found⟩
      · exact ⟨(live p).mpr (.inl above), (live d).mpr (.inr rfl), name, plain, made⟩
  constructor
  · exact counted
  · rw [root]
    exact wf.tree.grow above new live edges
  · rw [root, Set.eq_empty_iff_forall_notMem]
    rintro ⟨p, n⟩ ⟨plain, found⟩
    have there : p ≠ ino := by
      rintro rfl
      rw [find, if_pos rfl, newDir_plain _ _ plain] at found
      cases found
    exact wf.rootUnnamed plain ((same there (old wf.tree.root)).mp found)
  · intro d alive
    rcases (live d).mp alive with alive | rfl
    · exact (same (old alive) (old alive)).mpr (wf.dot d alive)
    · rw [find, if_pos rfl]
      rfl
  · intro p d edge
    rcases (edges p d).mp edge with edge | ⟨rfl, rfl⟩
    · exact (same (old edge.2.1) (old edge.1)).mpr (wf.up p d edge)
    · rw [find, if_pos rfl]
      rfl
  · rw [root]
    exact (same (old wf.tree.root) (old wf.tree.root)).mpr wf.rootUp

/-- An empty directory that is removed is a leaf. -/
theorem WellFormed.pruned (alive : Live v ino) (other : ino ≠ v.root)
    (empty : dirEmpty 0 (v.dirs ino) = true) (counted : Counted w) (root : w.root = v.root)
    (live : ∀ d, Live w d ↔ Live v d ∧ d ≠ ino) (same : SameBut ino v.dirs w.dirs) :
    WellFormed w := by
  have leaf : ∀ d, ¬ Edge v ino d := by
    rintro d ⟨-, -, n, plain, found⟩
    obtain ⟨p, up⟩ := wf.hasUp alive
    have noDots : n ≠ "." ∧ n ≠ ".." := by simpa [isDot] using plain
    rw [find_of_dirEmpty empty (wf.dot ino alive) up noDots.1 noDots.2] at found
    cases found
  have edges : ∀ p d, Edge w p d ↔ Edge v p d ∧ d ≠ ino := by
    intro p d
    constructor
    · rintro ⟨holds, held, n, plain, found⟩
      obtain ⟨holds, -⟩ := (live p).mp holds
      obtain ⟨held, stays⟩ := (live d).mp held
      exact ⟨⟨holds, held, n, plain, (same p n d stays).mp found⟩, stays⟩
    · rintro ⟨⟨holds, held, n, plain, found⟩, stays⟩
      have holder : p ≠ ino := by
        rintro rfl
        exact leaf d ⟨holds, held, n, plain, found⟩
      exact ⟨(live p).mpr ⟨holds, holder⟩, (live d).mpr ⟨held, stays⟩, n, plain,
        (same p n d stays).mpr found⟩
  constructor
  · exact counted
  · rw [root]
    exact wf.tree.prune leaf other live edges
  · rw [root, ← Set.subset_empty_iff, ← wf.unnamed]
    exact same.names other.symm
  · intro d there
    obtain ⟨there, stays⟩ := (live d).mp there
    exact (same d "." d stays).mpr (wf.dot d there)
  · intro p d edge
    have holder := ((live p).mp edge.1).2
    exact (same d ".." p holder).mpr (wf.up p d ((edges p d).mp edge).1)
  · rw [root]
    exact (same _ _ _ other.symm).mpr wf.rootUp

/-- A directory gets another name where it is. -/
theorem WellFormed.renamed {oldpath newpath : Name} (plainOld : isDot oldpath = false)
    (plainNew : isDot newpath = false) (old : (v.dirs dir).find oldpath = some ino)
    (absent : (v.dirs dir).find newpath = none) (counted : Counted w) (root : w.root = v.root)
    (live : ∀ d, Live w d ↔ Live v d)
    (find : ∀ p n, (w.dirs p).find n = if p = dir ∧ n = newpath then some ino
      else if p = dir ∧ n = oldpath then none else (v.dirs p).find n) : WellFormed w := by
  have dots : ∀ {p n}, isDot n = true → (w.dirs p).find n = (v.dirs p).find n := by
    intro p n dot
    have noNew : n ≠ newpath := by
      rintro rfl
      rw [plainNew] at dot
      cases dot
    have noOld : n ≠ oldpath := by
      rintro rfl
      rw [plainOld] at dot
      cases dot
    rw [find, if_neg fun entry => noNew entry.2, if_neg fun entry => noOld entry.2]
  -- what has a name keeps one in the same directory
  have before : ∀ {p n d}, isDot n = false → (w.dirs p).find n = some d →
      ∃ n, isDot n = false ∧ (v.dirs p).find n = some d := by
    intro p n d plain found
    rw [find] at found
    split at found
    · rename_i entry
      cases found
      exact ⟨oldpath, plainOld, entry.1 ▸ old⟩
    · split at found
      · cases found
      · exact ⟨n, plain, found⟩
  have after : ∀ {p n d}, isDot n = false → (v.dirs p).find n = some d →
      ∃ n, isDot n = false ∧ (w.dirs p).find n = some d := by
    intro p n d plain found
    by_cases moved : p = dir ∧ n = oldpath
    · obtain ⟨rfl, rfl⟩ := moved
      rw [old] at found
      exact ⟨newpath, plainNew, by rw [find, if_pos ⟨rfl, rfl⟩, found]⟩
    · refine ⟨n, plain, ?_⟩
      rw [find, if_neg, if_neg moved, found]
      rintro ⟨rfl, rfl⟩
      rw [absent] at found
      cases found
  have edges : ∀ p d, Edge w p d ↔ Edge v p d := by
    intro p d
    constructor
    · rintro ⟨holds, held, n, plain, found⟩
      exact ⟨(live p).mp holds, (live d).mp held, before plain found⟩
    · rintro ⟨holds, held, n, plain, found⟩
      exact ⟨(live p).mpr holds, (live d).mpr held, after plain found⟩
  constructor
  · exact counted
  · rw [root]
    exact wf.tree.congr live edges
  · rw [root, Set.eq_empty_iff_forall_notMem]
    rintro ⟨p, n⟩ ⟨plain, found⟩
    obtain ⟨m, plain, found⟩ := before plain found
    exact wf.rootUnnamed plain found
  · intro d alive
    rw [dots rfl]
    exact wf.dot d ((live d).mp alive)
  · intro p d edge
    rw [dots rfl]
    exact wf.up p d ((edges p d).mp edge)
  · rw [root, dots rfl]
    exact wf.rootUp

end Changes

theorem live_new {v w : Vol} {ino : Ino} {nlink : Nat} (linked : nlink ≠ 0)
    (shape : ∀ d, w.shape d = if d = ino then some (true, nlink) else v.shape d) (d : Ino) :
    Live w d ↔ Live v d ∨ d = ino := by
  by_cases same : d = ino
  · simp [Live, shape, same, linked]
  · simp [Live, shape, same]

theorem live_gone {v w : Vol} {ino : Ino}
    (shape : ∀ d, w.shape d = if d = ino then some (true, 0) else v.shape d) (d : Ino) :
    Live w d ↔ Live v d ∧ d ≠ ino := by
  by_cases same : d = ino
  · simp [Live, shape, same]
  · simp [Live, shape, same]

/-! ## The calls -/

open SameBut

section New

variable {v : Vol} {m : Making}

theorem makeNode_keeps (rootLive : Live v v.root) (free : v.inodes m.ino = none) {kind : Kind}
    (file : kind ≠ .directory) {size : UInt32} {count : Nat}
    (whole : Whole m.insert (v.dirs m.dir) m.name)
    (done : (makeNode v m kind size count).1 = none) : Keeps v (makeNode v m kind size count).2 := by
  obtain ⟨-, fine, result⟩ := makeNode_done done
  have notLive := not_live_of_free free
  have noDir : ((freshInode kind 1 size count m.time).setName m.name).isDir = false :=
    decide_eq_false file
  rw [result]
  apply Keeps.resize
  refine keeps (insert_sameBut fine whole) rootLive notLive rfl ?_
  exact live_put v m.ino (by simp [noDir, notLive])

theorem link_keeps (rootLive : Live v v.root) {ino : Ino} {i : Inode} (here : v.inodes ino = some i)
    (whole : Whole m.insert (v.dirs m.dir) m.name) (done : (link v m ino i).1 = none) :
    Keeps v (link v m ino i).2 := by
  obtain ⟨file, -, -, fine, result⟩ := link_done done
  have notLive := not_live_of_file here file
  rw [result]
  apply Keeps.resize
  refine keeps (insert_sameBut fine whole) rootLive notLive rfl ?_
  exact live_put v ino (by simp [file, notLive])

theorem mkdir_wellFormed (wf : WellFormed v) (free : v.inodes m.ino = none) (above : Live v m.dir)
    (whole : Whole m.insert (v.dirs m.dir) m.name) (done : (mkdir v m).1 = none)
    (counted : Counted (mkdir v m).2) : WellFormed (mkdir v m).2 := by
  obtain ⟨absent, fine, result⟩ := mkdir_done done
  have apart : m.dir ≠ m.ino := by
    intro same
    exact not_live_of_free free (same ▸ above)
  have plain : isDot m.name = false := by
    rw [isDot, decide_eq_false_iff_not]
    rintro (dot | dot)
    · rw [dot, wf.dot _ above] at absent
      cases absent
    · obtain ⟨p, up⟩ := wf.hasUp above
      rw [dot, up] at absent
      cases absent
  -- the parent is not the new directory, and the insertion finds it as it was
  have parent : (v.dirs.set m.ino (newDir m.ino m.dir)) m.dir = v.dirs m.dir :=
    Function.update_of_ne apart _ _
  obtain ⟨-, find⟩ := btreeInsert_done fine (by simpa [setDir, put, parent] using whole)
  rw [result] at counted ⊢
  refine wf.grown above free plain absent counted (resize_root _ _ _ _) ?_ ?_
  · apply live_new (show 2 ≠ 0 by decide)
    intro d
    rw [resize_shape, shape_indexAdd, setDir_put, setDir_put, put_put, shape_put]
    rfl
  · intro p n
    by_cases here : p = m.dir
    · subst here
      simpa [indexAdd, put, setDir, Rename.Volume.set, apart] using find n
    · by_cases new : p = m.ino
      · subst new
        simp [indexAdd, put, setDir, Rename.Volume.set, here]
      · simp [indexAdd, put, setDir, Rename.Volume.set, here, new]

end New

section Remove

variable {v : Vol} {dir ino : Ino} {name : Name} {i : Inode} {failure : Option Errno} {t : Moment}

theorem unlink_keeps (rootLive : Live v v.root) (found : v.lookup dir name = some (ino, i))
    (done : (unlink v dir name ino i failure t).1 = none) :
    Keeps v (unlink v dir name ino i failure t).2 := by
  obtain ⟨entry, here⟩ := lookup_eq_some found
  obtain ⟨file, fine, result⟩ := unlink_done done
  have notLive := not_live_of_file here file
  rw [result, btreeDelete_done fine]
  apply Keeps.settle
  apply Keeps.resize
  refine keeps (erase_sameBut entry) rootLive notLive rfl ?_
  exact live_put v ino (by simp [file, notLive])

/-- If the directory looks empty with so many entries unread, it is empty. -/
def ReadWhole (v : Vol) (unread : Nat) (ino : Ino) : Prop :=
  dirEmpty unread (v.dirs ino) = true → dirEmpty 0 (v.dirs ino) = true

instance (v : Vol) (unread : Nat) (ino : Ino) : Decidable (ReadWhole v unread ino) := by
  unfold ReadWhole
  infer_instance

theorem rmdir_wellFormed (wf : WellFormed v) (here : v.inodes ino = some i)
    (noDot : NoDotLeads v dir ino) {unread : Nat} (whole : ReadWhole v unread ino)
    (done : (rmdir v dir ino i failure unread t).1 = none) :
    WellFormed (rmdir v dir ino i failure unread t).2 := by
  obtain ⟨isDir, other, -, empty, fine, result⟩ := rmdir_done done
  obtain ⟨name, found, erased⟩ := btreeDeleteIno_done fine
  have alive : Live v ino := live_of_name wf.counted here isDir (noDot.plain found) found
  have shape : ∀ x, (((v.setDir dir (btreeDeleteIno failure (v.dirs dir) ino).2).indexRemoveOwn ino
      i).put ino { i with nlink := 0 }).shape x = if x = ino then some (true, 0) else v.shape x := by
    intro x
    rw [shape_put, shape_indexRemoveOwn, shape_setDir, Inode.isDir_nlink, isDir]
  have removed : WellFormed (((v.setDir dir (btreeDeleteIno failure (v.dirs dir)
      ino).2).indexRemoveOwn ino i).put ino { i with nlink := 0 }) := by
    refine wf.pruned alive other (whole empty) ?_ ?_ (live_gone shape) ?_
    · exact wf.counted.loseDir here isDir noDot fine (by simp [put, setDir]) shape
    · simp [put, setDir]
    · simpa [put, setDir, erased] using erase_sameBut found
  rw [result]
  refine removed.keeps ?_ ((removed.counted.resize _ _).settle ino)
  exact (resize_keeps _ _ _ _).settle ino

end Remove

section Rename

variable {v : Vol} {r : Renaming} {ino : Ino} {i : Inode}

theorem Whole.of_fewer {fate : Fate} {d d' : Dir} {name : Name} (whole : Whole fate d name)
    (fewer : ∀ n x, d'.find n = some x → d.find n = some x) : Whole fate d' name := by
  refine ⟨whole.1, fun entry member => ?_⟩
  exact whole.2 entry (find_eq_some.mp (fewer _ _ (find_eq_some.mpr member)))

/-- A file that is moved is no directory of the tree. -/
theorem moveInode_keeps (rootLive : Live v v.root) (here : v.inodes ino = some i)
    (file : i.isDir = false) (old : (v.dirs r.dirOld).find r.oldpath = some ino)
    (whole : Whole r.env.insertNew (v.dirs r.dirNew) r.newpath)
    (done : (moveInode v r ino i).1 = none) : Keeps v (moveInode v r ino i).2 := by
  obtain ⟨fine, result⟩ := moveInode_done done
  obtain ⟨inserted, final⟩ := moveEntry_done fine
  have notLive := not_live_of_file here file
  have whole := Whole.of_fewer whole (erase_adds v.dirs r.dirOld r.oldpath r.dirNew)
  have same : SameBut ino v.dirs ((moveEntry (r.call ino none) r.env v.dirs).final v.dirs) := by
    rw [final]
    exact (erase_sameBut old).trans (insert_sameBut inserted whole)
  have moved : ∀ w : Vol, w.root = v.root → w.dirs = (moveEntry (r.call ino none) r.env
      v.dirs).final v.dirs → (∀ x, w.shape x = (v.put ino (i.setName r.newpath)).shape x) →
      Keeps v w := by
    intro w root dirs shape
    refine keeps (dirs ▸ same) rootLive notLive root ?_
    intro d
    have put := live_put v ino (i := i.setName r.newpath) (live_iff here).symm d
    simpa only [Live, shape] using put
  rw [result]
  split
  · apply Keeps.resize
    exact moved _ rfl rfl fun _ => rfl
  · apply Keeps.resize
    apply Keeps.resize
    exact moved _ rfl rfl fun _ => rfl

section

variable (wf : WellFormed v) (here : v.inodes ino = some i) (plainOld : isDot r.oldpath = false)
  (plainNew : isDot r.newpath = false) (old : (v.dirs r.dirOld).find r.oldpath = some ino)
  (absent : (v.dirs r.dirNew).find r.newpath = none)

include wf here plainOld plainNew old absent

/-- A directory that is renamed stays where it is. -/
theorem moveInode_renamed (inPlace : r.dirOld = r.dirNew)
    (whole : Whole r.env.insertNew (v.dirs r.dirNew) r.newpath)
    (counted : Counted (moveInode v r ino i).2) (done : (moveInode v r ino i).1 = none) :
    WellFormed (moveInode v r ino i).2 := by
  obtain ⟨fine, result⟩ := moveInode_done done
  obtain ⟨inserted, final⟩ := moveEntry_done fine
  have whole := Whole.of_fewer whole (erase_adds v.dirs r.dirOld r.oldpath r.dirNew)
  obtain ⟨-, find⟩ := btreeInsert_done inserted whole
  have entries : ∀ p n, (((moveEntry (r.call ino none) r.env v.dirs).final v.dirs) p).find n =
      if p = r.dirNew ∧ n = r.newpath then some ino
      else if p = r.dirNew ∧ n = r.oldpath then none else (v.dirs p).find n := by
    intro p n
    rw [final]
    by_cases here : p = r.dirNew
    · subst here
      have own := find n
      simp only [Renaming.call, Rename.Volume.set, inPlace, Function.update_self, find_erase] at own ⊢
      simp [own]
    · simp [Renaming.call, Rename.Volume.set, inPlace, here]
  rw [if_pos inPlace.symm] at result
  rw [result] at counted ⊢
  rw [inPlace] at old
  refine wf.renamed plainOld plainNew old absent counted (resize_root _ _ _ _) ?_ ?_
  · intro d
    simp only [Live, resize_shape]
    exact live_put v ino (i := i.setName r.newpath) (live_iff here).symm d
  · intro p n
    rw [resize_dirs]
    exact entries p n

theorem moveInode_wellFormed (inPlace : i.isDir = true → r.dirOld = r.dirNew)
    (whole : Whole r.env.insertNew (v.dirs r.dirNew) r.newpath)
    (clean : Clean r.env.insertNew r.newpath) (done : (moveInode v r ino i).1 = none) :
    WellFormed (moveInode v r ino i).2 := by
  have counted := moveInode_counted wf.counted here plainOld old clean
  cases isDir : i.isDir with
  | true =>
    exact moveInode_renamed wf here plainOld plainNew old absent (inPlace isDir) whole counted done
  | false => exact wf.keeps (moveInode_keeps wf.tree.root here isDir old whole done) counted

end

/-- The target has lost its name, and is a leaf less if it was a directory. -/
theorem unlinkTarget_wellFormed (wf : WellFormed v) {t : Ino} {j : Inode}
    (target : v.lookup r.dirNew r.newpath = some (t, j)) (plain : isDot r.newpath = false)
    (noDot : j.isDir = true → NoDotLeads v r.dirNew t)
    (empty : j.isDir = true → dirEmpty 0 (v.dirs t) = true)
    (done : (r.deleted v ⟨t, j.isDir⟩).1 = none) :
    let deleted := (r.deleted v ⟨t, j.isDir⟩).2
    WellFormed (unlinkTarget (v.setDir r.dirNew deleted) ⟨t, j.isDir⟩) ∧
      deleted = (v.dirs r.dirNew).erase r.newpath := by
  obtain ⟨entry, here⟩ := lookup_eq_some target
  have counted := unlinkTarget_counted wf.counted target plain noDot done
  have erased : (r.deleted v ⟨t, j.isDir⟩).2 = (v.dirs r.dirNew).erase r.newpath := by
    unfold Renaming.deleted deleteTarget at done ⊢
    split at done
    · rename_i isDir
      rw [if_pos isDir]
      obtain ⟨other, leads, erased⟩ := btreeDeleteIno_done done
      have alive : Live v t := live_of_name wf.counted here isDir plain entry
      have member : (r.dirNew, other) ∈ names v.dirs t := ⟨(noDot isDir).plain leads, leads⟩
      have target : (r.dirNew, r.newpath) ∈ names v.dirs t := ⟨plain, entry⟩
      rw [names_eq_singleton wf.counted alive target] at member
      rw [erased, (Prod.mk.inj member).2]
    · rename_i file
      rw [if_neg file]
      exact btreeDelete_done done
  intro deleted
  refine ⟨?_, erased⟩
  change Counted (unlinkTarget (v.setDir r.dirNew deleted) _) at counted
  have shape : ∀ x, (unlinkTarget (v.setDir r.dirNew deleted) ⟨t, j.isDir⟩).shape x =
      if x = t then some (j.isDir, if j.isDir then 0 else j.nlink - 1) else v.shape x :=
    unlinkTarget_shape here
  have same : SameBut t v.dirs (unlinkTarget (v.setDir r.dirNew deleted) ⟨t, j.isDir⟩).dirs := by
    rw [unlinkTarget_dirs, show deleted = _ from erased]
    exact erase_sameBut entry
  cases isDir : j.isDir with
  | true =>
    have alive : Live v t := live_of_name wf.counted here isDir plain entry
    have other : t ≠ v.root := by
      rintro rfl
      exact wf.rootUnnamed plain entry
    rw [isDir] at counted shape same
    exact wf.pruned alive other (empty isDir) counted (unlinkTarget_root _ _) (live_gone shape) same
  | false =>
    have notLive := not_live_of_file here isDir
    rw [isDir] at counted shape same
    refine wf.keeps (same.keeps wf.tree.root notLive (unlinkTarget_root _ _) ?_) counted
    intro d
    by_cases own : d = t
    · subst own
      exact iff_of_false (by simp [Live, shape]) notLive
    · simp [Live, shape, if_neg own]

/-- A rename that keeps the tree: a directory stays in its directory, or nothing is done since both
names lead to it; a directory that is replaced was read to its end; no name is lost. -/
def TreeRename (v : Vol) (r : Renaming) : Prop :=
  Whole r.env.insertNew (v.dirs r.dirNew) r.newpath ∧
    (∀ found ∈ v.lookup r.dirOld r.oldpath, found.2.isDir = true →
      r.dirOld = r.dirNew ∨ (v.lookup r.dirNew r.newpath).map (·.1) = some found.1) ∧
    ∀ target ∈ v.lookup r.dirNew r.newpath, target.2.isDir = true → ReadWhole v r.env.unread target.1

instance (v : Vol) (r : Renaming) : Decidable (TreeRename v r) := by
  unfold TreeRename
  infer_instance

theorem rename_wellFormed (wf : WellFormed v) (links : SafeRename v r) (safe : TreeRename v r) {w : Vol}
    (called : sysRename v r = some (none, w)) : WellFormed w := by
  obtain ⟨clean, noDot⟩ := links
  obtain ⟨whole, inPlace, empty⟩ := safe
  rcases sysRename_cases called with rfl | ⟨ino, i, found, plainOld, plainNew, -, -, asked⟩
  · exact wf
  obtain ⟨old, here⟩ := lookup_eq_some found
  rcases asked with ⟨missing, renamed⟩ | ⟨t, j, target, different, -, renamed⟩
  · have absent : (v.dirs r.dirNew).find r.newpath = none := by
      cases entry : (v.dirs r.dirNew).find r.newpath with
      | none => rfl
      | some x =>
        have present := wf.counted.noDangling _ _ x plainNew entry
        simp [lookup, entry, present] at missing
    have stays : i.isDir = true → r.dirOld = r.dirNew := by
      intro isDir
      simpa [missing] using inPlace _ found isDir
    obtain ⟨done, result⟩ := agfsRename_none_done (by rw [renamed])
    have after : w = (moveInode v r ino i).2 := by rw [← result, renamed]
    rw [after]
    exact moveInode_wellFormed wf here plainOld plainNew old absent stays whole clean done
  · obtain ⟨entry, there⟩ := lookup_eq_some target
    have stays : i.isDir = true → r.dirOld = r.dirNew := by
      intro isDir
      simpa [target, different.symm] using inPlace _ found isDir
    obtain ⟨read, deleted, done, result⟩ := agfsRename_done (by rw [renamed])
    have after : w = (agfsRename v r ino i (some ⟨t, j.isDir⟩)).2 := by rw [renamed]
    obtain ⟨unlinked, erased⟩ := unlinkTarget_wellFormed wf target plainNew (noDot _ target)
      (fun isDir => empty _ target isDir (read isDir)) deleted
    have kept := deleteTarget_adds r.env v.dirs r.dirNew r.newpath ⟨t, j.isDir⟩ r.dirNew
    have moved := moveInode_wellFormed unlinked ?_ plainOld plainNew ?_ ?_ stays ?_ clean done
    · rw [after, result]
      exact moved.keeps (settle_keeps _ _) (moved.counted.settle _)
    · rw [unlinkTarget_inodes there, Function.update_of_ne different]
      exact here
    · rw [unlinkTarget_dirs, erased]
      exact (erase_sameBut entry r.dirOld r.oldpath ino different).mpr old
    · rw [erased]
      simp [setDir, Rename.Volume.set, find_erase]
    · rw [unlinkTarget_dirs]
      exact Whole.of_fewer whole kept

end Rename

/-! ## Runs -/

instance (v : Vol) (d : Ino) : Decidable (Live v d) :=
  decidable_of_iff ((v.inodes d).any fun i => i.isDir && i.nlink != 0) (by
    cases here : v.inodes d with
    | none => simp [not_live_of_free here]
    | some i => simp [live_iff here])

/-- A call that keeps the tree. -/
def TreeLabel (v : Vol) : Label → Prop
  | .create m | .mknod _ m | .symlink _ _ _ m | .link _ _ m => Whole m.insert (v.dirs m.dir) m.name
  | .mkdir m => Live v m.dir ∧ Whole m.insert (v.dirs m.dir) m.name
  | .rename r => TreeRename v r
  | .rmdir dir name _ unread _ => ∀ found ∈ v.lookup dir name, ReadWhole v unread found.1
  | .unlink .. | .write .. | .truncate .. | .utimensat .. | .openFile .. | .closeFile _
  | .flush _ | .evict _ => True

/-- A call that leaves a link for every name, and keeps the tree. -/
def SafeLabel (v : Vol) (l : Label) : Prop := LinkCount.SafeLabel v l ∧ TreeLabel v l

instance (v : Vol) (l : Label) : Decidable (TreeLabel v l) := by
  refine l.casesOn ?_ ?_ ?_ ?_ ?_ ?_ ?_ ?_ ?_ ?_ ?_ ?_ ?_ ?_ ?_ <;> intros <;>
    unfold TreeLabel <;> infer_instance

instance (v : Vol) (l : Label) : Decidable (SafeLabel v l) := by
  unfold SafeLabel
  infer_instance

/-- An inode that changes, but not in what it is nor in whether it is linked. -/
theorem put_keeps {v : Vol} {ino : Ino} {i i' : Inode} (here : v.inodes ino = some i)
    (isDir : i'.isDir = i.isDir) (nlink : i'.nlink = 0 ↔ i.nlink = 0) : Keeps v (v.put ino i') := by
  refine ⟨rfl, live_put v ino ?_, fun _ _ _ _ _ => .rfl, le_refl _⟩
  rw [live_iff here, isDir, ne_eq, nlink]

theorem call_wellFormed {v w : Vol} {l : Label} (wf : WellFormed v) (safe : SafeLabel v l)
    (called : call v l = some (none, w)) : WellFormed w := by
  obtain ⟨links, safe⟩ := safe
  have counted : Counted w := call_counted wf.counted links called
  cases l with
  | create m =>
    obtain ⟨-, free, done, rfl⟩ := of_done called
    exact wf.keeps (makeNode_keeps wf.tree.root free (by decide) safe done) counted
  | mknod kind m =>
    obtain ⟨-, free, done, rfl⟩ := of_done called
    cases kind with
    | regular | special =>
      exact wf.keeps (makeNode_keeps wf.tree.root free (by decide) safe done) counted
    | directory | symlink => cases done
  | symlink target data undo m =>
    obtain ⟨-, free, done, rfl⟩ := of_done called
    cases data with
    | none => exact wf.keeps (makeNode_keeps wf.tree.root free (by decide) safe done) counted
    | some e =>
      simp only [symlink] at done
      split at done
      · cases done
      · split at done <;> cases done
  | mkdir m =>
    obtain ⟨-, free, done, rfl⟩ := of_done called
    exact mkdir_wellFormed wf free safe.1 safe.2 done counted
  | link dirOld oldname m =>
    simp only [call] at called
    split at called
    · obtain ⟨⟨ino, i⟩, found, result⟩ := map_eq_some_iff.mp called
      obtain rfl : _ = w := congrArg Prod.snd result
      exact wf.keeps
        (link_keeps wf.tree.root (lookup_eq_some found).2 safe (by rw [result])) counted
    · cases called
  | unlink dir name failure time =>
    obtain ⟨⟨ino, i⟩, found, result⟩ := map_eq_some_iff.mp called
    obtain rfl : _ = w := congrArg Prod.snd result
    exact wf.keeps (unlink_keeps wf.tree.root found (by rw [result])) counted
  | rmdir dir name failure unread time =>
    obtain ⟨⟨ino, i⟩, found, result⟩ := map_eq_some_iff.mp called
    obtain rfl : _ = w := congrArg Prod.snd result
    exact rmdir_wellFormed wf (lookup_eq_some found).2 (links _ found) (safe _ found) (by rw [result])
  | rename r =>
    simp only [call] at called
    split at called
    · exact rename_wellFormed wf links safe called
    · cases called
  | write ino off n time | truncate ino length time =>
    obtain ⟨i, here, result⟩ := map_eq_some_iff.mp called
    cases result
    exact wf.keeps (resize_keeps _ _ _ _) counted
  | utimensat ino mtime | flush ino =>
    obtain ⟨i, here, result⟩ := map_eq_some_iff.mp called
    cases result
    exact wf.keeps (put_keeps here rfl .rfl) counted
  | openFile dir name =>
    obtain ⟨⟨ino, i⟩, found, result⟩ := map_eq_some_iff.mp called
    cases result
    exact wf.keeps (put_keeps (lookup_eq_some found).2 rfl .rfl) counted
  | closeFile ino =>
    obtain ⟨i, here, result⟩ := Option.bind_eq_some_iff.mp called
    split at result
    · cases result
    · cases result
      refine wf.keeps ?_ counted
      apply Keeps.settle
      exact put_keeps here rfl .rfl
  | evict ino =>
    obtain ⟨i, here, result⟩ := Option.bind_eq_some_iff.mp called
    split at result
    · rename_i idle
      cases result
      refine wf.keeps (put_keeps here rfl ?_) counted
      have linked : i.reread.nlink ≠ 0 := by
        simp only [Inode.reread]
        split <;> decide
      exact iff_of_false linked idle.2
    · cases result

/-- **The directory graph**: from a volume in order, in every state that calls that succeed reach,
the directories form a tree below the root and each `..` leads to the directory that holds the name,
if every call meets the condition. -/
theorem directory_tree {v₀ v : Vol} {ls : List Label} (wf : WellFormed v₀)
    (safe : Guarded stepDone SafeLabel v₀ ls) (ran : run stepDone v₀ ls = some v) :
    DirectoryTree v := by
  have wf : WellFormed v :=
    run_inv (fun _ _ _ wf safe taken => call_wellFormed wf safe (stepDone_eq_some taken)) wf safe ran
  exact wf.directoryTree

/-! ## Poles -/

theorem emptyVol_wellFormed : WellFormed emptyVol := by
  have only : ∀ d, Live emptyVol d → d = 2 := by
    intro d alive
    by_contra other
    exact not_live_of_free (by simp [emptyVol, other]) alive
  have rootLive : Live emptyVol 2 := ⟨2, rfl, by decide⟩
  have edgeless : ∀ p d, ¬ Edge emptyVol p d := by
    rintro p d ⟨-, -, n, named, found⟩
    rw [emptyVol_plain named] at found
    cases found
  refine ⟨emptyVol_counted, ⟨rootLive, ?_, fun p => edgeless p _, ?_, ?_⟩, emptyVol_unnamed _, ?_, ?_,
    rfl⟩
  · exact fun p d edge => absurd edge (edgeless p d)
  · exact fun p q d edge => absurd edge (edgeless p d)
  · intro d alive
    rw [only d alive]
    exact .refl
  · intro d alive
    rw [only d alive]
    rfl
  · exact fun p d edge => absurd edge (edgeless p d)

/-- Directories are made below each other, renamed, replaced by one another and removed. -/
def directoryLife : List Label :=
  [.mkdir (making 2 "a" 10), .mkdir (making 10 "b" 11), .mkdir (making 10 "c" 12),
    .rename ⟨10, "b", 10, "d", calm, 2048, noon⟩, .rename ⟨10, "d", 10, "c", calm, 2048, noon⟩,
    .create (making 11 "f" 13), .rename ⟨11, "f", 2, "f", calm, 2048, noon⟩,
    .rmdir 10 "c" none 0 noon]

theorem directory_tree_directoryLife :
    ∃ v, run stepDone emptyVol directoryLife = some v ∧ DirectoryTree v := by
  refine exists_run (by decide +kernel) fun v ran => ?_
  exact directory_tree emptyVol_wellFormed (Guarded.of_decide (by decide +kernel)) ran

/-- `/a` becomes `/a/b/c`. -/
def belowItself : List Label :=
  [.mkdir (making 2 "a" 10), .mkdir (making 10 "b" 11), .rename ⟨2, "a", 11, "c", calm, 2048, noon⟩]

/-- **A directory below itself**: after the rename `a` holds `b`, and `b` holds `a`. Neither can be
reached from the root, and `..` of `a` still leads there. -/
theorem directory_cycle :
    ∃ v, WellFormed emptyVol ∧ run stepDone emptyVol belowItself = some v ∧ ¬ DirectoryTree v := by
  have ends : (run stepDone emptyVol belowItself).any
      (fun v => decide (Live v 10) && decide (Live v 11) && (v.dirs 10).find "b" == some 11 &&
        (v.dirs 11).find "c" == some 10) = true := by decide +kernel
  rw [Option.any_eq_true] at ends
  obtain ⟨v, ran, test⟩ := ends
  simp only [Bool.and_eq_true, decide_eq_true_eq, beq_iff_eq] at test
  obtain ⟨⟨⟨a, b⟩, down⟩, back⟩ := test
  have first : Edge v 10 11 := ⟨a, b, "b", by decide, down⟩
  have second : Edge v 11 10 := ⟨b, a, "c", by decide, back⟩
  exact ⟨v, emptyVol_wellFormed, ran, fun tree => tree.acyclic 10 (.head first (.single second))⟩

end Argentum.Agfs.DirTree
