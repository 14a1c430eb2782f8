/-
# Agfs.BTree.Listing — walking the entries of a tree

`agfs_btree_iterate` goes down to the leftmost leaf and then from leaf to leaf, and hands every
entry to a callback that can stop it. Three callers depend on what it returns. `agfs_dir_count`
does not look at it: a directory whose leaves cannot be read counts as empty
(`rmdir_only_empty_iff`). `agfs_attr_list` looks for an error when its callback stopped the
walk, which is none (`listxattr_complete_iff`). `agfs_readdir64` finds its place again by the
bytes of the records it handed out, after it has cut them to the length of the directory's
stream (`readdir_complete_iff`).
-/
import Argentum.Agfs.BTree.Calls
import Argentum.Agfs.BTree.Keys
import Argentum.Agfs.Xattr
import Argentum.Lib.Walk

namespace Argentum.Agfs.BTree

open List

/-! ## The walk -/

/-- `AGFS_BTREE_MAX_KEY_LEN`. -/
def maxKeyLen : Nat := 256

abbrev Entry := StringKey × UInt32

section Iterate

variable {σ α : Type} (d : Disk StringKey) (fails : Nat → Bool) (fn : σ → Entry → σ × Bool)

/-- The callback on one entry after another, until it asks to stop. -/
def visit (fn : σ → α → σ × Bool) : σ → List α → σ × Bool
  | s, [] => (s, false)
  | s, e :: es =>
    match fn s e with
    | (s, true) => (s, true)
    | (s, false) => visit fn s es

/-- The loop over the keys of a leaf; a result, if `agfs_btree_iterate` returns there. -/
def report : σ → List (StringKey × Nat) → σ × Option (Option Errno)
  | s, [] => (s, none)
  | s, (key, value) :: pairs =>
    if maxKeyLen ≤ keylen key then (s, some (some .eio))
    else match fn s (key, UInt32.ofNat value) with
      | (s, true) => (s, some none)
      | (s, false) => report s pairs

/-- The next node on the way down, or nothing at a leaf. -/
def below (off : Nat) : Option Nat :=
  (d.nodes off).overflow.map fun overflow =>
    match (d.nodes off).pairs with
    | [] => overflow
    | (_, child) :: _ => child

/-- The way down, from read number `k` on: how many reads are done, and the leaf. -/
def firstLeaf : Nat → Nat → Nat → Option (Except Errno (Nat × Nat))
  | 0, _, _ => none
  | fuel + 1, k, off =>
    if fails k then some (.error .eio)
    else match below d off with
      | none => some (.ok (k + 1, off))
      | some child => firstLeaf fuel (k + 1) child

def visitLeaves : Nat → Nat → Nat → σ → Option (σ × Option Errno)
  | 0, _, _, _ => none
  | fuel + 1, k, off, s =>
    if fails k then some (s, some .eio)
    else if (d.nodes off).overflow.isSome then some (s, some .eio)
    else match report fn s (d.nodes off).pairs with
      | (s, some r) => some (s, r)
      | (s, none) =>
        match (d.nodes off).right with
        | none => some (s, none)
        | some right => visitLeaves fuel (k + 1) right s

/-- `agfs_btree_iterate`; `fails` says which of its reads fail. What the callback has made, and
the error. -/
def iterate (fuel : Nat) (s : σ) : Option (σ × Option Errno) :=
  if fails 0 then some (s, some .eio)
  else match firstLeaf d fails fuel 1 d.header.root with
    | none => none
    | some (.error e) => some (s, some e)
    | some (.ok (k, off)) => visitLeaves d fails fn fuel k off s

end Iterate

/-! ## What a tree lists -/

/-- A tree whose links lead down to a leaf and from there through leaves to the last one. -/
structure Listing (d : Disk StringKey) where
  path : List Nat
  leaf : Nat
  leaves : List Nat
  down : Lib.Walk (below d) d.header.root path
  bottom : path.getLast? = some leaf
  right : Lib.Walk (fun off => (d.nodes off).right) leaf leaves
  flat : ∀ off ∈ leaves, (d.nodes off).overflow = none
  short : ∀ off ∈ leaves, ∀ pair ∈ (d.nodes off).pairs, keylen pair.1 < maxKeyLen

def entriesOf (d : Disk StringKey) (leaves : List Nat) : List Entry :=
  leaves.flatMap fun off => (d.nodes off).pairs.map fun pair => (pair.1, UInt32.ofNat pair.2)

def Listing.entries {d : Disk StringKey} (listing : Listing d) : List Entry :=
  entriesOf d listing.leaves

/-- The leaves before the first one that cannot be read. -/
def readable (fails : Nat → Bool) : Nat → List Nat → List Nat
  | _, [] => []
  | k, off :: leaves => if fails k then [] else off :: readable fails (k + 1) leaves

section Walks

variable {σ α : Type} {d : Disk StringKey} {fails : Nat → Bool} {fn : σ → Entry → σ × Bool}
  {fuel : Nat} {k off : Nat}

theorem visit_append (fn : σ → α → σ × Bool) (s : σ) (es es' : List α) :
    visit fn s (es ++ es') =
      if (visit fn s es).2 then visit fn s es else visit fn (visit fn s es).1 es' := by
  induction es generalizing s with
  | nil => simp [visit]
  | cons e es ih =>
    rw [cons_append, visit, visit]
    rcases fn s e with ⟨s', _ | _⟩
    · exact ih s'
    · rfl

theorem report_eq {pairs : List (StringKey × Nat)}
    (short : ∀ pair ∈ pairs, keylen pair.1 < maxKeyLen) (s : σ) :
    report fn s pairs =
      ((visit fn s (pairs.map fun pair => (pair.1, UInt32.ofNat pair.2))).1,
        if (visit fn s (pairs.map fun pair => (pair.1, UInt32.ofNat pair.2))).2 then some none
        else none) := by
  induction pairs generalizing s with
  | nil => rfl
  | cons pair pairs ih =>
    obtain ⟨first, others⟩ := forall_mem_cons.mp short
    rw [report, if_neg (by omega), map_cons, visit]
    rcases fn s (pair.1, UInt32.ofNat pair.2) with ⟨s', _ | _⟩
    · exact ih others s'
    · rfl

theorem firstLeaf_eq (fails : Nat → Bool) {leaf : Nat} {path : List Nat}
    (down : Lib.Walk (below d) off path) (bottom : path.getLast? = some leaf)
    (enough : path.length ≤ fuel) :
    (∀ i < path.length, fails (k + i) = false) ∧
        firstLeaf d fails fuel k off = some (.ok (k + path.length, leaf)) ∨
      (∃ i < path.length, fails (k + i) = true) ∧
        firstLeaf d fails fuel k off = some (.error .eio) := by
  induction down generalizing fuel k with
  | last ends =>
    obtain _ | fuel := fuel
    · simp at enough
    rw [firstLeaf, ends]
    cases bottom
    cases here : fails k <;> simp [here]
  | @step a b l goes rest ih =>
    obtain _ | fuel := fuel
    · simp at enough
    have same : l.getLast? = some leaf := by cases rest <;> simpa using bottom
    have later := ih (k := k + 1) same (by simpa using enough)
    rw [firstLeaf, goes, length_cons]
    simp only [Nat.forall_lt_succ_left, Nat.exists_lt_succ_left]
    cases here : fails k with
    | true => exact .inr ⟨.inl rfl, rfl⟩
    | false => simpa [Nat.add_assoc, Nat.add_comm 1] using later

/-- The callback sees the entries of the leaves that can be read. -/
theorem visitLeaves_eq {leaves : List Nat}
    (right : Lib.Walk (fun off => (d.nodes off).right) off leaves)
    (flat : ∀ off ∈ leaves, (d.nodes off).overflow = none)
    (short : ∀ off ∈ leaves, ∀ pair ∈ (d.nodes off).pairs, keylen pair.1 < maxKeyLen)
    (enough : leaves.length ≤ fuel) (s : σ) :
    ∃ r, visitLeaves d fails fn fuel k off s =
        some ((visit fn s (entriesOf d (readable fails k leaves))).1, r) ∧
      ((∀ i, fails i = false) → r = none) := by
  induction right generalizing fuel k s with
  | last ends =>
    obtain _ | fuel := fuel
    · simp at enough
    rw [visitLeaves, flat _ (by simp), report_eq (short _ (by simp)), ends, readable]
    cases here : fails k with
    | true => exact ⟨_, rfl, fun none => by rw [none] at here; cases here⟩
    | false =>
      simp only [Bool.false_eq_true, if_false, readable, entriesOf, flatMap_cons, flatMap_nil,
        append_nil]
      rcases visit fn s _ with ⟨s', _ | _⟩ <;> exact ⟨_, rfl, fun _ => rfl⟩
  | @step a b l goes rest ih =>
    obtain _ | fuel := fuel
    · simp at enough
    rw [visitLeaves, flat _ (by simp), report_eq (short _ (by simp)), goes, readable]
    cases here : fails k with
    | true => exact ⟨_, rfl, fun none => by rw [none] at here; cases here⟩
    | false =>
      have later := ih (k := k + 1) (fun off member => flat off (by simp [member]))
        (fun off member => short off (by simp [member])) (by simpa using enough)
      simp only [Bool.false_eq_true, if_false, entriesOf, flatMap_cons, visit_append] at later ⊢
      rcases visit fn s _ with ⟨s', _ | _⟩
      · exact later s'
      · exact ⟨_, rfl, fun _ => rfl⟩

/-- The leaves whose entries the callback sees. -/
def Listing.seen (listing : Listing d) (fails : Nat → Bool) : List Nat :=
  if ∀ i < listing.path.length + 1, fails i = false then
    readable fails (listing.path.length + 1) listing.leaves
  else []

theorem Listing.iterate_eq (listing : Listing d) (fails : Nat → Bool) (fn : σ → Entry → σ × Bool)
    (enough : listing.path.length ≤ fuel ∧ listing.leaves.length ≤ fuel) (s : σ) :
    ∃ r, iterate d fails fn fuel s =
        some ((visit fn s (entriesOf d (listing.seen fails))).1, r) ∧
      ((∀ i, fails i = false) → r = none) := by
  have header : ∀ i, fails (1 + i) = fails (i + 1) := fun i => by rw [Nat.add_comm]
  have way := firstLeaf_eq fails (k := 1) listing.down listing.bottom enough.1
  simp only [header] at way
  rw [iterate, Listing.seen]
  simp only [Nat.forall_lt_succ_left]
  cases first : fails 0 with
  | true => exact ⟨_, rfl, fun none => by rw [none] at first; cases first⟩
  | false =>
    rw [if_neg Bool.false_ne_true]
    rcases way with ⟨fine, leaf⟩ | ⟨⟨i, inside, bad⟩, stopped⟩
    · rw [leaf, if_pos ⟨rfl, fine⟩, Nat.add_comm]
      exact visitLeaves_eq listing.right listing.flat listing.short enough.2 s
    · rw [stopped, if_neg fun all => by rw [all.2 i inside] at bad; cases bad]
      exact ⟨_, rfl, fun none => by rw [none] at bad; cases bad⟩

theorem Listing.seen_all (listing : Listing d) (fine : ∀ i, fails i = false) :
    listing.seen fails = listing.leaves := by
  have all : ∀ k leaves, readable fails k leaves = leaves := by
    intro k leaves
    induction leaves generalizing k with
    | nil => rfl
    | cons off leaves ih => simp [readable, fine, ih]
  rw [Listing.seen, if_pos fun i _ => fine i, all]

end Walks

/-- A tree that is one leaf, as `agfs_mkdir` and `agfs_attr_dir_create` make it. -/
def oneLeaf (pairs : List (StringKey × Nat)) : Disk StringKey where
  header := ⟨1024, 1, 2048⟩
  nodes off := if off = 1024 then ⟨none, none, none, pairs⟩ else Node.empty
  words _ _ := 0

def oneLeafListing (pairs : List (StringKey × Nat))
    (short : ∀ pair ∈ pairs, keylen pair.1 < maxKeyLen) : Listing (oneLeaf pairs) where
  path := [1024]
  leaf := 1024
  leaves := [1024]
  down := .last rfl
  bottom := rfl
  right := .last rfl
  flat := by simp [oneLeaf]
  short := by simpa [oneLeaf] using short

/-! ## Removing a directory -/

section Rmdir

variable (d : Disk StringKey) (fails : Nat → Bool) (fuel : Nat)

/-- `agfs_dir_count`. -/
def dirCount : Option Nat :=
  (iterate d fails (fun count _ => (count + 1, false)) fuel 0).map Prod.fst

/-- `agfs_rmdir`, up to what `agfs_btree_delete_ino` returns for the parent. -/
def rmdir (deleteIno : Option Errno) : Option (Option Errno) :=
  (dirCount d fails fuel).map fun count => if 2 < count then some .enotempty else deleteIno

end Rmdir

def dot : StringKey := ⟨[46], by decide⟩

def dotdot : StringKey := ⟨[46, 46], by decide⟩

/-- A listing as `agfs_mkdir` begins it: two entries are the directory and its parent. -/
structure Directory (d : Disk StringKey) extends Listing d where
  nodup : (toListing.entries.map Prod.fst).Nodup
  dots : [dot, dotdot] ⊆ toListing.entries.map Prod.fst

namespace Directory

variable {d : Disk StringKey} (dir : Directory d) {fails : Nat → Bool} {fuel : Nat}

def OnlyDots : Prop := dir.entries.map Prod.fst ⊆ [dot, dotdot]

/-- The leaves before the first failing read have a third entry. -/
def ThirdRead (fails : Nat → Bool) : Prop := 2 < (entriesOf d (dir.seen fails)).length

theorem onlyDots_iff : dir.OnlyDots ↔ dir.entries.length ≤ 2 := by
  rw [← length_map]
  constructor
  · exact fun only => (subperm_of_subset dir.nodup only).length_le
  · intro few
    have both : [dot, dotdot].Nodup := by simp [dot, dotdot]
    exact ((subperm_of_subset both dir.dots).perm_of_length_le few).symm.subset

theorem count_visit (n : Nat) (es : List Entry) :
    (visit (fun count (_ : Entry) => (count + 1, false)) n es).1 = n + es.length := by
  induction es generalizing n with
  | nil => rfl
  | cons e es ih => rw [visit, ih, length_cons]; omega

/-- **When `agfs_rmdir` keeps entries.** For every directory and every pattern of failing reads
the call returns, and it removes no directory with other entries than `.` and `..` if and only
if the parent refuses, or there are none, or the third entry is read before a read fails. -/
theorem rmdir_only_empty_iff (fails : Nat → Bool) (deleteIno : Option Errno)
    (enough : dir.path.length ≤ fuel ∧ dir.leaves.length ≤ fuel) :
    (∃ r, rmdir d fails fuel deleteIno = some r) ∧
      ((rmdir d fails fuel deleteIno = some none → dir.OnlyDots) ↔
        deleteIno ≠ none ∨ dir.OnlyDots ∨ dir.ThirdRead fails) := by
  obtain ⟨r, ends, -⟩ := dir.iterate_eq fails (fun count _ => (count + 1, false)) enough 0
  rw [rmdir, dirCount, ends, count_visit, ThirdRead]
  by_cases three : 2 < (entriesOf d (dir.seen fails)).length
  · simp [three]
  · simp [three]
    tauto

/-- A directory with a file in it. -/
def crowded : List (StringKey × Nat) := [(dot, 8), (dotdot, 1), (⟨[97], by decide⟩, 9)]

def crowdedDir : Directory (oneLeaf crowded) where
  toListing := oneLeafListing crowded (by decide)
  nodup := by simp [Listing.entries, entriesOf, oneLeafListing, oneLeaf, crowded, dot, dotdot]
  dots := by simp [Listing.entries, entriesOf, oneLeafListing, oneLeaf, crowded]

/-- The leaf is read, or is not. -/
theorem rmdir_only_empty_iff_crowded :
    (rmdir (oneLeaf crowded) (fun _ => false) 1 none = some (some .enotempty) ∧
      ((rmdir (oneLeaf crowded) (fun _ => false) 1 none = some none → crowdedDir.OnlyDots) ↔
        (none : Option Errno) ≠ none ∨ crowdedDir.OnlyDots ∨ crowdedDir.ThirdRead fun _ => false)) ∧
    ((rmdir (oneLeaf crowded) (· == 1) 1 none = some none → crowdedDir.OnlyDots) ↔
      (none : Option Errno) ≠ none ∨ crowdedDir.OnlyDots ∨ crowdedDir.ThirdRead (· == 1)) :=
  ⟨⟨rfl, (crowdedDir.rmdir_only_empty_iff (fun _ => false) none (by decide)).2⟩,
    (crowdedDir.rmdir_only_empty_iff (· == 1) none (by decide)).2⟩

/-- The leaf cannot be read, and the directory is removed with the file in it. -/
theorem rmdir_removes_file :
    rmdir (oneLeaf crowded) (fun read => read == 1) 1 none = some none ∧ ¬ crowdedDir.OnlyDots :=
  ⟨rfl, fun only => absurd (crowdedDir.onlyDots_iff.mp only) (by decide)⟩

end Directory

/-! ## Reading a directory -/

section Readdir

/-- `dirent_len`. -/
def direntLen (name : StringKey) : Nat := (8 + 8 + 2 + 1 + name.bytes.length + 1 + 3) / 4 * 4

/-- `struct agfs_readdir_arg`, with the records packed so far. -/
structure ReaddirArg where
  size : Nat
  skip : Nat
  records : List Entry

/-- `agfs_readdir_entry`. -/
def readdirEntry (count : Nat) (a : ReaddirArg) (e : Entry) : ReaddirArg × Bool :=
  if a.skip ≠ 0 ∧ direntLen e.1 ≤ a.skip then ({ a with skip := a.skip - direntLen e.1 }, false)
  else if count ≤ a.size + direntLen e.1 then ({ a with skip := 0 }, true)
  else (⟨a.size + direntLen e.1, 0, a.records ++ [e]⟩, false)

variable (d : Disk StringKey) (fuel isize count : Nat)

/-- `agfs_readdir64`: the records, and the offset behind them. -/
def readdir64 (fails : Nat → Bool) (offset : Nat) : Option (Except Errno (List Entry × Nat)) :=
  let offset := min offset isize
  match iterate d fails (readdirEntry count) fuel ⟨0, offset, []⟩ with
  | none => none
  | some (_, some _) => some (.error .eio)
  | some (a, none) => some (.ok (a.records, offset + a.size))

/-- `getdents64` until it returns 0, at most `n` times: all the records. -/
def scan : Nat → Nat → Option (List Entry)
  | 0, _ => none
  | n + 1, offset =>
    match readdir64 d fuel isize count (fun _ => false) offset with
    | some (.ok ([], _)) => some []
    | some (.ok (records, offset)) => (scan n offset).map (records ++ ·)
    | _ => none

end Readdir

/-- The bytes of all records. -/
def direntBytes (es : List Entry) : Nat := (es.map fun e => direntLen e.1).sum

section Scan

variable {d : Disk StringKey} {fuel isize count : Nat}

theorem direntLen_pos (name : StringKey) : 0 < direntLen name := by
  unfold direntLen
  omega

@[simp] theorem direntBytes_cons (e : Entry) (es : List Entry) :
    direntBytes (e :: es) = direntLen e.1 + direntBytes es := sum_cons

@[simp] theorem direntBytes_append (es es' : List Entry) :
    direntBytes (es ++ es') = direntBytes es + direntBytes es' := by
  simp [direntBytes]

/-- An offset that is the length of records skips these. -/
theorem visit_skip (size : Nat) (records es rest : List Entry) :
    visit (readdirEntry count) ⟨size, direntBytes es, records⟩ (es ++ rest) =
      visit (readdirEntry count) ⟨size, 0, records⟩ rest := by
  induction es with
  | nil => rfl
  | cons e es ih =>
    have long := direntLen_pos e.1
    rw [cons_append, visit, readdirEntry, if_pos ⟨by simp; omega, by simp⟩]
    simpa using ih

/-- Once nothing is skipped the call packs what fits, and the first record does. -/
theorem visit_pack (count size : Nat) (records es : List Entry) :
    ∃ m, (visit (readdirEntry count) ⟨size, 0, records⟩ es).1 =
        ⟨size + direntBytes (es.take m), 0, records ++ es.take m⟩ ∧
      (∀ e ∈ es.head?, size + direntLen e.1 < count → 0 < m) := by
  induction es generalizing size records with
  | nil => exact ⟨0, by simp [visit, direntBytes], by simp⟩
  | cons e es ih =>
    rw [visit, readdirEntry]
    by_cases full : count ≤ size + direntLen e.1
    · exact ⟨0, by simp [if_pos full, direntBytes], by simp; omega⟩
    · obtain ⟨m, same, -⟩ := ih (size + direntLen e.1) (records ++ [e])
      exact ⟨m + 1, by simp [if_neg full, same, Nat.add_assoc], by simp⟩

/-- An offset short of the end leaves a record to hand out. -/
theorem visit_short {es : List Entry} (room : ∀ e ∈ es, direntLen e.1 < count) {skip : Nat}
    (early : skip < direntBytes es) :
    (visit (readdirEntry count) ⟨0, skip, []⟩ es).1.records ≠ [] := by
  induction es generalizing skip with
  | nil => simp [direntBytes] at early
  | cons e es ih =>
    obtain ⟨first, others⟩ := forall_mem_cons.mp room
    rw [direntBytes_cons] at early
    rw [visit, readdirEntry]
    by_cases skipped : skip ≠ 0 ∧ direntLen e.1 ≤ skip
    · rw [if_pos skipped]
      exact ih others (by simp; omega)
    · obtain ⟨m, same, -⟩ := visit_pack count (0 + direntLen e.1) ([] ++ [e]) es
      rw [if_neg skipped, if_neg (by simpa using first)]
      simp only [same]
      simp

variable (listing : Listing d) (enough : listing.path.length ≤ fuel ∧ listing.leaves.length ≤ fuel)

include enough

theorem readdir64_eq (offset : Nat) :
    readdir64 d fuel isize count (fun _ => false) offset =
      let a := (visit (readdirEntry count) ⟨0, min offset isize, []⟩ listing.entries).1
      some (.ok (a.records, min offset isize + a.size)) := by
  obtain ⟨r, ends, fine⟩ := listing.iterate_eq (fun _ => false) (readdirEntry count) enough
    ⟨0, min offset isize, []⟩
  rw [readdir64, ends, fine fun _ => rfl, listing.seen_all fun _ => rfl]
  rfl

section

variable (room : ∀ e ∈ listing.entries, direntLen e.1 < count)

include room

/-- At the end of the records handed out, the next call goes on with the rest. -/
theorem readdir64_rest (fits : direntBytes listing.entries ≤ isize) {done rest : List Entry}
    (parts : done ++ rest = listing.entries) :
    ∃ m, readdir64 d fuel isize count (fun _ => false) (direntBytes done) =
        some (.ok (rest.take m, direntBytes (done ++ rest.take m))) ∧ (rest ≠ [] → 0 < m) := by
  obtain ⟨m, same, most⟩ := visit_pack count 0 [] rest
  have inside : min (direntBytes done) isize = direntBytes done := by
    rw [← parts, direntBytes_append] at fits
    omega
  refine ⟨m, ?_, fun more => ?_⟩
  · rw [readdir64_eq listing enough, inside, ← parts, visit_skip, same]
    simp
  · obtain ⟨e, rest, rfl⟩ := exists_cons_of_ne_nil more
    exact most e rfl (by simpa using room e (by simp [← parts]))

theorem scan_rest (fits : direntBytes listing.entries ≤ isize) (n : Nat) (done rest : List Entry)
    (parts : done ++ rest = listing.entries) (few : rest.length ≤ n) :
    scan d fuel isize count (n + 1) (direntBytes done) = some rest := by
  induction n generalizing done rest with
  | zero =>
    obtain ⟨m, call, -⟩ := readdir64_rest listing enough room fits parts
    obtain rfl := length_eq_zero_iff.mp (Nat.le_zero.mp few)
    simp [scan, call]
  | succ n ih =>
    obtain ⟨m, call, most⟩ := readdir64_rest listing enough room fits parts
    cases rest with
    | nil => simp [scan, call]
    | cons e rest =>
      obtain ⟨m, rfl⟩ : ∃ k, m = k + 1 := ⟨m - 1, by have := most (by simp); omega⟩
      have later := ih (done ++ (e :: rest).take (m + 1)) (rest.drop m)
        (by simpa using parts) (by simp at few ⊢; omega)
      rw [scan, call]
      simp only [take_succ_cons] at later ⊢
      rw [later]
      simp

/-- Below its end the listing never ends. -/
theorem scan_endless (long : isize < direntBytes listing.entries) (n offset : Nat) :
    scan d fuel isize count n offset = none := by
  induction n generalizing offset with
  | zero => rfl
  | succ n ih =>
    have some := visit_short room (show min offset isize < _ by omega)
    rw [scan, readdir64_eq listing enough]
    split
    · simp_all
    · rw [ih]
      rfl
    · rfl

end

/-- **When a directory can be listed.** With a buffer larger than every record, calling
`agfs_readdir64` from offset 0 until it returns 0 gives every entry once, iff the
records of all entries are not longer than `i_size`. -/
theorem readdir_complete_iff (room : ∀ e ∈ listing.entries, direntLen e.1 < count) :
    (∃ n, scan d fuel isize count n 0 = some listing.entries) ↔
      direntBytes listing.entries ≤ isize := by
  constructor
  · rintro ⟨n, whole⟩
    by_contra long
    rw [scan_endless listing enough room (Nat.lt_of_not_le long)] at whole
    cases whole
  · intro fits
    exact ⟨_, scan_rest listing enough room fits _ [] _ rfl (Nat.le_refl _)⟩

end Scan

def letter (i : Nat) : StringKey :=
  ⟨[UInt8.ofNat (i % 100 + 48)], by
    have small := Nat.mod_lt i (show 0 < 100 by omega)
    simp [← UInt8.toNat_inj]
    omega⟩

/-- The two dots and `n` files with short names. -/
def letters (n : Nat) : List (StringKey × Nat) :=
  (dot, 8) :: (dotdot, 1) :: (List.range n).map fun i => (letter i, 9 + i)

theorem letters_short (n : Nat) : ∀ pair ∈ letters n, keylen pair.1 < maxKeyLen := by
  simp [letters, dot, dotdot, letter, keylen, maxKeyLen]

/-- 22 entries, in a buffer that takes a few at a time. -/
theorem readdir_complete_iff_letters :
    ∃ n, scan (oneLeaf (letters 20)) 1 2048 100 n 0 =
      some (oneLeafListing _ (letters_short 20)).entries :=
  (readdir_complete_iff (oneLeafListing _ (letters_short 20)) (by decide) (by decide)).mpr
    (by decide)

/-- A directory of 86 entries fits one leaf, but its records are longer than the 2048 bytes of its
stream: reading it does not end. -/
theorem readdir_endless :
    nodeBytes (letters 84) ≤ nodeSize ∧
      ¬ ∃ n, scan (oneLeaf (letters 84)) 1 2048 4096 n 0 =
        some (oneLeafListing _ (letters_short 84)).entries := by
  refine ⟨by decide, fun ⟨n, whole⟩ => ?_⟩
  rw [scan_endless (oneLeafListing _ (letters_short 84)) (by decide) (by decide) (by decide)]
    at whole
  cases whole

/-! ## Listing attributes -/

section Listxattr

/-- `struct agfs_xattr_list` and `struct agfs_attr_list_ctx`, with the names copied so far. -/
structure ListArg where
  total : Nat
  list : List Bytes
  /-- `errno` is `-ERANGE`. -/
  erange : Bool

variable (size : Nat)

/-- `agfs_attr_list_cb`. -/
def listName (l : ListArg) (name : Bytes) : ListArg × Bool :=
  if size = 0 then ({ l with total := l.total + name.length + 1 }, false)
  else if l.total + name.length + 1 ≤ size then
    ({ l with total := l.total + name.length + 1, list := l.list ++ [name] }, false)
  else ({ l with erange := true }, true)

/-- `agfs_xattr_list_cb`. -/
def listRecord (l : ListArg) (r : SmallData.Record) : ListArg × Bool :=
  if Xattr.isName r then (l, false) else listName size l r.name

variable (fuel : Nat) (dir : Option (Disk StringKey))

/-- `agfs_attr_list`: `list` and what is returned, or the error. -/
def attrList (start : ListArg) : Option (Except Errno (Nat × List Bytes)) :=
  match dir with
  | none => some (.ok (0, start.list))
  | some d =>
    match iterate d (fun _ => false) (fun l e => listName size l e.1.bytes) fuel
        { start with erange := false } with
    | none => none
    | some (l, res) =>
      if res.isSome ∧ l.erange then some (.error .erange)
      else some (.ok (l.total - start.total, l.list))

/-- `agfs_listxattr` of an inode with the tail `area` and the attribute directory `dir`. -/
def listxattr (isInline : Bool) (area : Bytes) :
    Option (Except Errno (Nat × List Bytes)) :=
  if isInline then some (.ok (0, []))
  else
    let walk := visit (listRecord size) ⟨0, [], false⟩ (SmallData.records area)
    if walk.2 ∧ walk.1.erange then some (.error .erange)
    else if size ≠ 0 ∧ walk.1.erange then some (.error .erange)
    else match attrList size fuel dir walk.1 with
      | none => none
      | some (.error e) => some (.error e)
      | some (.ok (res, list)) => some (.ok (walk.1.total + res, list))

end Listxattr

/-- The names with their terminators. -/
def nameBytes (names : List Bytes) : Nat := (names.map fun name => name.length + 1).sum

/-- The names of the attributes in the tail, without the record of the file's name. -/
def tailNames (area : Bytes) : List Bytes :=
  ((SmallData.records area).filter fun r => !Xattr.isName r).map SmallData.Record.name

def dirNames (dir : Option ((d : Disk StringKey) × Listing d)) : List Bytes :=
  (dir.map fun tree => tree.2.entries.map fun e => e.1.bytes).getD []

/-- What a list of these names should be. -/
def wholeList (size : Nat) (names : List Bytes) : Except Errno (Nat × List Bytes) :=
  if size ≠ 0 ∧ size < nameBytes names then .error .erange
  else .ok (nameBytes names, if size = 0 then [] else names)

section Complete

variable {size : Nat} {names : List Bytes}

@[simp] theorem nameBytes_cons (name : Bytes) (names : List Bytes) :
    nameBytes (name :: names) = name.length + 1 + nameBytes names := sum_cons

@[simp] theorem nameBytes_append (names names' : List Bytes) :
    nameBytes (names ++ names') = nameBytes names + nameBytes names' := by
  simp [nameBytes]

theorem visit_map {σ α β : Type} (fn : σ → β → σ × Bool) (g : α → β) (s : σ) (es : List α) :
    visit (fun s e => fn s (g e)) s es = visit fn s (es.map g) := by
  induction es generalizing s with
  | nil => rfl
  | cons e es ih => simp only [map_cons, visit, ih]

theorem visit_listRecord (l : ListArg) (rs : List SmallData.Record) :
    visit (listRecord size) l rs =
      visit (listName size) l ((rs.filter fun r => !Xattr.isName r).map SmallData.Record.name) := by
  induction rs generalizing l with
  | nil => rfl
  | cons r rs ih =>
    rw [visit, listRecord]
    cases hidden : Xattr.isName r with
    | true => simpa [hidden] using ih l
    | false => simp [hidden, visit, ih]

/-- The names that fit are all listed. -/
theorem visit_listName_fits (l : ListArg) (fits : size = 0 ∨ l.total + nameBytes names ≤ size) :
    visit (listName size) l names =
      ({ l with
        total := l.total + nameBytes names
        list := if size = 0 then l.list else l.list ++ names }, false) := by
  induction names generalizing l with
  | nil => simp [visit, nameBytes]
  | cons name names ih =>
    rw [nameBytes_cons] at fits
    rw [visit, listName]
    by_cases query : size = 0
    · rw [if_pos query]
      exact (ih _ (.inl query)).trans (by simp [query, Nat.add_assoc])
    · rw [if_neg query, if_pos (by omega)]
      exact (ih _ (.inr (by dsimp only; omega))).trans (by simp [query, Nat.add_assoc])

/-- The first that does not fit stops the walk. -/
theorem visit_listName_stops (query : size ≠ 0) {l : ListArg} (start : l.total ≤ size)
    (long : size < l.total + nameBytes names) :
    (visit (listName size) l names).2 = true ∧ (visit (listName size) l names).1.erange = true := by
  induction names generalizing l with
  | nil => simp [nameBytes] at long; omega
  | cons name names ih =>
    rw [nameBytes_cons] at long
    rw [visit, listName, if_neg query]
    by_cases fits : l.total + name.length + 1 ≤ size
    · rw [if_pos fits]
      exact ih fits (by simp; omega)
    · rw [if_neg fits]
      exact ⟨rfl, rfl⟩

theorem wholeList_empty : .ok (0, []) = wholeList size names ↔ names = [] := by
  cases names with
  | nil => simp [wholeList, nameBytes]
  | cons name names =>
    rw [wholeList]
    split
    · simp
    · simp
      omega

variable (size) {fuel : Nat} (dir : Option ((d : Disk StringKey) × Listing d))
  (enough : ∀ tree ∈ dir, tree.2.path.length ≤ fuel ∧ tree.2.leaves.length ≤ fuel)

include enough

/-- `agfs_attr_list` never returns an error: the walk that it stopped returns 0. -/
theorem attrList_eq (start : ListArg) :
    ∃ r, attrList size fuel (dir.map Sigma.fst) start = some (.ok r) ∧
      (size = 0 ∨ start.total + nameBytes (dirNames dir) ≤ size →
        r = (nameBytes (dirNames dir),
          if size = 0 then start.list else start.list ++ dirNames dir)) := by
  cases dir with
  | none => exact ⟨_, rfl, by simp [dirNames, nameBytes]⟩
  | some tree =>
    obtain ⟨res, ends, fine⟩ := tree.2.iterate_eq (fun _ => false)
      (fun l e => listName size l e.1.bytes) (enough tree rfl) { start with erange := false }
    simp only [Option.map_some, attrList, ends, fine fun _ => rfl, tree.2.seen_all fun _ => rfl]
    refine ⟨_, if_neg (by simp), fun fits => ?_⟩
    have names : dirNames (some tree) =
        (entriesOf tree.1 tree.2.leaves).map fun e => e.1.bytes := rfl
    rw [names] at fits ⊢
    rw [visit_map (listName size) fun e : Entry => e.1.bytes,
      visit_listName_fits _ (by simpa using fits)]
    simp

/-- **When `agfs_listxattr` is complete.** For every inode and every buffer size: no attribute may
be behind inline data, and the buffer may not end among the names of the attribute directory. -/
theorem listxattr_complete_iff (isInline : Bool) (area : List UInt8) :
    listxattr size fuel (dir.map Sigma.fst) isInline area =
        some (wholeList size (tailNames area ++ dirNames dir)) ↔
      if isInline then tailNames area ++ dirNames dir = []
      else ¬ (size ≠ 0 ∧ nameBytes (tailNames area) ≤ size ∧
        size < nameBytes (tailNames area ++ dirNames dir)) := by
  cases isInline with
  | true =>
    rw [listxattr, if_pos rfl, if_pos rfl, Option.some_inj, wholeList_empty]
  | false =>
    rw [listxattr, visit_listRecord, ← tailNames]
    by_cases fits : size = 0 ∨ nameBytes (tailNames area) ≤ size
    · rw [visit_listName_fits _ (by simpa using fits)]
      obtain ⟨r, call, whole⟩ := attrList_eq size dir enough
        ⟨0 + nameBytes (tailNames area), if size = 0 then [] else [] ++ tailNames area, false⟩
      simp only [Bool.false_eq_true, and_false, if_false, call]
      by_cases all : size = 0 ∨ nameBytes (tailNames area) + nameBytes (dirNames dir) ≤ size
      · have short : ¬ (size ≠ 0 ∧ size < nameBytes (tailNames area ++ dirNames dir)) := by
          rw [nameBytes_append]
          omega
        rw [whole (by simpa using all), wholeList]
        by_cases query : size = 0
        · simp [query]
        · simp [query]
          omega
      · rw [wholeList, if_pos ⟨by omega, by simp; omega⟩]
        simp
        omega
    · have long : size < (⟨0, [], false⟩ : ListArg).total + nameBytes (tailNames area) := by omega
      have stopped := visit_listName_stops (by omega) (Nat.zero_le size) long
      simp only [if_pos stopped]
      rw [wholeList]
      simp
      omega

end Complete

/-- An attribute in the directory and none in the tail. -/
def tagged : (d : Disk StringKey) × Listing d :=
  ⟨_, oneLeafListing [(⟨[116, 97, 103], by decide⟩, 9)] (by decide)⟩

theorem listxattr_complete_iff_tagged :
    listxattr 4 1 (some tagged.1) false [] = some (.ok (4, [[116, 97, 103]])) :=
  have enough : ∀ tree ∈ some tagged, tree.2.path.length ≤ 1 ∧ tree.2.leaves.length ≤ 1 := by
    simp [tagged, oneLeafListing]
  (listxattr_complete_iff 4 (some tagged) enough false []).mpr (by decide)

/-- A buffer of three bytes is too short for the name, and the call says that there is none. -/
theorem listxattr_drops_name :
    listxattr 3 1 (some tagged.1) false [] = some (.ok (0, [])) ∧
      wholeList 3 (tailNames [] ++ dirNames (some tagged)) = .error .erange := ⟨rfl, rfl⟩

end Argentum.Agfs.BTree
