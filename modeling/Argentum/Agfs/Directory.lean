/-
# Agfs.Directory — a directory as its B+tree answers for it

A directory is the finite map that `agfs_btree_find` sees: names to inode blocks. The
calls that change it run one journal transaction each and may fail; how they end is an
input (`Fate`, or the error of a deletion).

A deletion that fails has changed nothing: every error comes before
`agfs_btree_remove_at`. But in an insertion `agfs_btree_split` writes the left half in
place and links the right half to its parent only afterwards, and the wrapper commits
whatever was written, so after a failure in between the names of the right half are no
longer found. The last write of a root split, the header's, is not even checked, so
this can happen in an insertion that returns 0.
-/
import Argentum.Agfs.BTree.Keys
import Mathlib.Data.List.AList
import Mathlib.Data.List.Sort

namespace Argentum.Agfs

open List AList

abbrev Name := String

/-- An inode is named by its block. -/
abbrev Ino := Nat

abbrev Dir := AList fun _ : Name => Ino

namespace Dir

/-- `agfs_btree_find`. -/
def find (d : Dir) (name : Name) : Option Ino := d.lookup name

/-- The names that are still found when the nodes holding `cut` have lost their parent. -/
def without (d : Dir) (cut : Name → Bool) : Dir :=
  ⟨d.entries.filter fun entry => !cut entry.1, d.nodupKeys.sublist filter_sublist⟩

theorem find_erase (d : Dir) (name n : Name) :
    find (d.erase name) n = if n = name then none else d.find n := by
  split
  · subst n
    exact lookup_erase name d
  · exact lookup_erase_ne ‹_›

theorem find_insert (d : Dir) (name n : Name) (ino : Ino) :
    find (d.insert name ino) n = if n = name then some ino else d.find n := by
  split
  · subst n
    exact lookup_insert d
  · exact lookup_insert_ne ‹_›

variable {d : Dir} {n : Name}

theorem find_eq_some {ino : Ino} : d.find n = some ino ↔ ⟨n, ino⟩ ∈ d.entries :=
  mem_lookup_iff

theorem find_eq_none : d.find n = none ↔ n ∉ d := lookup_eq_none

theorem find_without (d : Dir) (cut : Name → Bool) (n : Name) :
    (d.without cut).find n = if cut n then none else d.find n := by
  apply Option.ext
  intro ino
  rw [find_eq_some]
  cases gone : cut n with
  | true => simp [without, gone]
  | false => simp [without, gone, find_eq_some]

end Dir

/-! ## Insertion -/

/-- How an insertion of a new name ends. -/
inductive Fate where
  /-- An error before any leaf that lookups reach has changed. -/
  | stops (e : Errno)
  /-- The leaf was rewritten, whole or as a left half; `cut` tells the names that stand in
  nodes no parent leads to. None, if every step of a split was taken. -/
  | ends (errno : Option Errno) (cut : Name → Bool)

namespace Fate

def errno : Fate → Option Errno
  | stops e => some e
  | ends e _ => e

/-- The new pair was written. -/
def adds : Fate → Bool
  | stops _ => false
  | ends _ _ => true

def cuts : Fate → Name → Bool
  | stops _ => fun _ => false
  | ends _ cut => cut

/-- Nothing went wrong. -/
def done : Fate := .ends none fun _ => false

end Fate

/-- `agfs_btree_insert`; a directory tree refuses a name it has. -/
def btreeInsert (fate : Fate) (d : Dir) (name : Name) (ino : Ino) : Option Errno × Dir :=
  if name = "" then (some .einval, d)
  else match fate with
    | .stops e => (some e, d)
    | .ends e cut =>
      if name ∈ d then (some .eexist, d) else (e, Dir.without (d.insert name ino) cut)

open Dir

open Fate

section Insert

variable {d : Dir} {name : Name} {ino : Ino} {fate : Fate}

theorem btreeInsert_errno (fate : Fate) (named : name ≠ "") (absent : d.find name = none) :
    (btreeInsert fate d name ino).1 = fate.errno := by
  have new : name ∉ d := find_eq_none.mp absent
  cases fate <;> simp [btreeInsert, named, new, errno]

/-- What is found after an insertion of a new name, however it ended. -/
theorem find_btreeInsert (fate : Fate) (named : name ≠ "") (absent : d.find name = none)
    (n : Name) :
    (btreeInsert fate d name ino).2.find n =
      if fate.cuts n then none
      else if n = name ∧ fate.adds = true then some ino else d.find n := by
  have new : name ∉ d := find_eq_none.mp absent
  cases fate with
  | stops e => simp [btreeInsert, named, cuts, adds]
  | ends e cut =>
    simp [btreeInsert, named, new, cuts, adds, find_insert, find_without]

/-- The insertion loses no name of the directory, and not the new one. -/
def Whole (fate : Fate) (d : Dir) (name : Name) : Prop :=
  fate.cuts name = false ∧ ∀ entry ∈ d.entries, fate.cuts entry.1 = false

instance (fate : Fate) (d : Dir) (name : Name) : Decidable (Whole fate d name) := by
  unfold Whole
  infer_instance

/-- An insertion that succeeds and is whole adds the entry. -/
theorem btreeInsert_done (done : (btreeInsert fate d name ino).1 = none)
    (whole : Whole fate d name) :
    d.find name = none ∧
      ∀ n, (btreeInsert fate d name ino).2.find n = if n = name then some ino else d.find n := by
  have named : name ≠ "" := by
    rintro rfl
    simp [btreeInsert] at done
  have absent : d.find name = none := by
    cases fate with
    | stops e => simp [btreeInsert, named] at done
    | ends e cut =>
      simp only [btreeInsert, if_neg named] at done
      split at done
      · cases done
      · exact find_eq_none.mpr ‹_›
  have adds : fate.adds = true := by
    cases fate with
    | stops e => simp [btreeInsert, named] at done
    | ends e cut => rfl
  refine ⟨absent, fun n => ?_⟩
  rw [find_btreeInsert fate named absent, adds]
  by_cases new : n = name
  · simp [new, whole.1]
  cases found : d.find n with
  | none => simp [new]
  | some x =>
    have uncut := whole.2 _ (find_eq_some.mp found)
    simp [uncut]

/-- However an insertion ends, what is found afterwards was there or is the new entry. -/
theorem find_of_btreeInsert {n : Name} {x : Ino}
    (found : (btreeInsert fate d name ino).2.find n = some x) :
    d.find n = some x ∨ n = name ∧ x = ino := by
  unfold btreeInsert at found
  split at found
  · exact .inl found
  cases fate with
  | stops e => exact .inl found
  | ends e cut =>
    simp only at found
    split at found
    · exact .inl found
    rw [find_without, find_insert] at found
    split at found
    · cases found
    split at found
    · rename_i same
      cases found
      exact .inr ⟨same, rfl⟩
    · exact .inl found

end Insert

/-! ## Deletion -/

/-- `agfs_btree_delete`. -/
def btreeDelete (failure : Option Errno) (d : Dir) (name : Name) : Option Errno × Dir :=
  if name = "" then (some .einval, d)
  else match failure with
    | some e => (some e, d)
    | none => if name ∈ d then (none, d.erase name) else (some .enoent, d)

/-- The entries along the leaves of the tree. -/
def Dir.inKeyOrder (d : Dir) : List (Sigma fun _ : Name => Ino) :=
  d.entries.insertionSort fun a b =>
    BTree.keyCmp a.1.toUTF8.data.toList b.1.toUTF8.data.toList ≤ 0

/-- `agfs_btree_delete_ino`: the first entry that names the inode goes. -/
def btreeDeleteIno (failure : Option Errno) (d : Dir) (ino : Ino) : Option Errno × Dir :=
  match failure with
  | some e => (some e, d)
  | none =>
    match d.inKeyOrder.find? fun entry => entry.2 == ino with
    | some entry => (none, d.erase entry.1)
    | none => (some .enoent, d)

section Delete

variable {d : Dir} {name : Name} {ino : Ino} {failure : Option Errno} {e : Errno} {n : Name}
  {x : Ino}

/-- A deletion that succeeds removes the name and nothing else. -/
theorem btreeDelete_done (done : (btreeDelete failure d name).1 = none) :
    (btreeDelete failure d name).2 = d.erase name := by
  unfold btreeDelete at done ⊢
  split at done
  · cases done
  rename_i named
  rw [if_neg named]
  cases failure with
  | some e => cases done
  | none =>
    simp only at done ⊢
    split at done
    · rename_i present
      rw [if_pos present]
    · cases done

theorem btreeDelete_unchanged
    (failed : (btreeDelete failure d name).1 = some e) : (btreeDelete failure d name).2 = d := by
  unfold btreeDelete at failed ⊢
  split
  · rfl
  rename_i named
  rw [if_neg named] at failed
  cases failure with
  | some e => rfl
  | none =>
    simp only at failed ⊢
    split
    · rename_i present
      rw [if_pos present] at failed
      cases failed
    · rfl

theorem find_btreeDelete_self (named : name ≠ "") : (btreeDelete none d name).2.find name = none := by
  simp only [btreeDelete, if_neg named]
  split
  · rw [find_erase, if_pos rfl]
  · exact find_eq_none.mpr ‹_›

theorem find_of_btreeDelete
    (found : (btreeDelete failure d name).2.find n = some x) : d.find n = some x := by
  unfold btreeDelete at found
  split at found
  · exact found
  cases failure with
  | some e => exact found
  | none =>
    simp only at found
    split at found
    · rw [find_erase] at found
      split at found
      · cases found
      · exact found
    · exact found

theorem find_of_btreeDeleteIno
    (found : (btreeDeleteIno failure d ino).2.find n = some x) : d.find n = some x := by
  unfold btreeDeleteIno at found
  cases failure with
  | some e => exact found
  | none =>
    simp only at found
    split at found
    · rw [find_erase] at found
      split at found
      · cases found
      · exact found
    · exact found

theorem find_of_first {entry : Sigma fun _ : Name => Ino}
    (first : (d.inKeyOrder.find? fun entry => entry.2 == ino) = some entry) :
    d.find entry.1 = some ino := by
  have member : entry ∈ d.entries := (mem_insertionSort _).mp (mem_of_find?_eq_some first)
  have value : entry.2 = ino := by simpa using List.find?_some first
  exact find_eq_some.mpr (value ▸ member)

/-- A deletion by inode that succeeds removes a name that leads there. -/
theorem btreeDeleteIno_done (done : (btreeDeleteIno failure d ino).1 = none) :
    ∃ name, d.find name = some ino ∧ (btreeDeleteIno failure d ino).2 = d.erase name := by
  unfold btreeDeleteIno at done ⊢
  cases failure with
  | some e => cases done
  | none =>
    cases first : d.inKeyOrder.find? fun entry => entry.2 == ino with
    | none =>
      rw [first] at done
      cases done
    | some entry => exact ⟨entry.1, find_of_first first, rfl⟩

theorem btreeDeleteIno_unchanged
    (failed : (btreeDeleteIno failure d ino).1 = some e) : (btreeDeleteIno failure d ino).2 = d := by
  unfold btreeDeleteIno at failed ⊢
  cases failure with
  | some e => rfl
  | none =>
    simp only at failed ⊢
    split
    · rename_i first
      rw [first] at failed
      cases failed
    · rfl

end Delete

/-! ## Counting -/

/-- `agfs_dir_count`; the iteration ends at the first leaf it cannot read. -/
def dirCount (unread : Nat) (d : Dir) : Nat := d.entries.length - unread

/-- `agfs_dir_empty`: no more than `.` and `..`. -/
def dirEmpty (unread : Nat) (d : Dir) : Bool := dirCount unread d ≤ 2

/-- An empty directory that has `.` and `..` has no other name. -/
theorem find_of_dirEmpty {d : Dir} (empty : dirEmpty 0 d = true) {a b : Ino}
    (dot : d.find "." = some a) (up : d.find ".." = some b) {n : Name} (noDot : n ≠ ".")
    (noUp : n ≠ "..") : d.find n = none := by
  cases found : d.find n with
  | none => rfl
  | some x =>
    have three : [⟨".", a⟩, ⟨"..", b⟩, ⟨n, x⟩] ⊆ d.entries := by
      simp [find_eq_some.mp dot, find_eq_some.mp up, find_eq_some.mp found]
    have apart : [(⟨".", a⟩ : Sigma fun _ : Name => Ino), ⟨"..", b⟩, ⟨n, x⟩].Nodup := by
      simp [noDot.symm, noUp.symm]
    have more := (subperm_of_subset apart three).length_le
    have few : d.entries.length - 0 ≤ 2 := of_decide_eq_true empty
    simp only [length_cons] at more
    omega

end Argentum.Agfs
