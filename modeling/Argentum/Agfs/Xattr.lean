/-
# Agfs.Xattr — extended attributes as a finite map

An attribute is a record in the tail of the inode (`Agfs.SmallData`), or, if it does not fit
there, a file in the inode's attribute directory. Writes and truncations change the tail
too: a small file keeps its bytes there.

The attribute directory is a map from names to a type and the bytes of a file; a call that
fails is no step. Beside the inode stands `map`, what was set and not removed.

`attributes_form_map` says that `agfs_getxattr` answers from the map, provided that an empty
file that has attributes is not given its first bytes by a small write: it becomes an inline
file then, and inline files are taken to have no attributes (`attribute_hidden`).
-/
import Mathlib.Data.List.AList
import Argentum.Agfs.Ownership
import Argentum.Agfs.SmallData

namespace Argentum.Agfs.Xattr

open Lib.Machine Agfs.SmallData List Function
open Agfs.Ownership (inlineMax)

/-! ## The inode -/

abbrev AttrName := Bytes

/-- The files of an attribute directory, with the type and the bytes of each. -/
abbrev Attrs := AList fun _ : AttrName => UInt32 × Bytes

structure Node where
  /-- `i_size`. -/
  size : Nat
  /-- `AGFS_INODE_INLINE_DATA`. -/
  isInline : Bool
  /-- `small_data`, as long as for the largest block. -/
  area : Bytes
  /-- The attribute directory, if `attributes` points to one. -/
  attrs : Option Attrs

/-- `AGFS_SMALL_DATA_SIZE`. -/
def smallDataSize : Nat := 3864

/-- `AGFS_FILE_NAME_TYPE`. -/
def fileNameType : UInt32 := 0x43535452

/-- `AGFS_ATTR_NAME_MAX` and `XATTR_NAME_MAX`. -/
def attrNameMax : Nat := 255

/-- The name of the record that holds the file's name. -/
def nameOfName : AttrName := [0x13]

/-- `AGFS_SD_IS_NAME`. -/
def isName (r : Record) : Bool := r.name = nameOfName

/-- `agfs_xattr_refuse_name`. -/
def refuseName (name : AttrName) : Bool := name = nameOfName

/-- `xattr_name`: 47 is the slash. -/
def xattrName (name : AttrName) : Option Errno :=
  if name = [] then some .einval
  else if attrNameMax < name.length then some .erange
  else if (47 : UInt8) ∈ name then some .eacces
  else none

/-- Bytes from `off` on; what would lie behind the end is lost. -/
def overwrite (p : Bytes) (off : Nat) (bytes : Bytes) : Bytes :=
  (p.take off ++ bytes ++ p.drop (off + bytes.length)).take p.length

def zeros (n : Nat) : Bytes := List.replicate n 0

section Calls

-- `tail` is the part of `small_data` that the block has room for
variable (tail : Nat) (s : Node) (name : AttrName)

/-- `agfs_xattr_walk` with `agfs_xattr_find_cb` or `agfs_xattr_remove_cb`. -/
def findRecord : Option Record :=
  (records (s.area.take tail)).find? fun r => !isName r && decide (r.name = name)

/-- `agfs_attr_find`. -/
def attrFind : Option (UInt32 × Bytes) := s.attrs.bind fun dir => dir.lookup name

/-- What a call that found a value returns, with the bytes copied; a buffer of size zero asks for
the length. -/
def answer (value : Bytes) (size : Nat) : Except Errno (Nat × Bytes) :=
  if size = 0 then .ok (value.length, [])
  else if size < value.length then .error .erange
  else .ok (value.length, value)

/-- `agfs_getxattr`. -/
def getxattr (size : Nat) : Except Errno (Nat × Bytes) :=
  if refuseName name then .error .eacces
  else if s.isInline then .error .enodata
  else match findRecord tail s name with
    | some r => answer r.data size
    | none =>
      match attrFind s name with
      | some attr => answer attr.2 size
      | none => .error .enodata

/-- `agfs_attr_remove`. -/
def attrRemove : Except Errno Node :=
  match s.attrs with
  | none => .error .enodata
  | some dir =>
    match dir.lookup name with
    | none => .error .enodata
    | some _ => .ok { s with
        attrs := if (dir.erase name).entries = [] then none else some (dir.erase name) }

/-- `agfs_attr_set`. The file of an attribute that is there keeps its type. -/
def attrSet (value : Bytes) (type : UInt32) : Node :=
  let dir := s.attrs.getD ∅
  let type := match attrFind s name with
    | some attr => attr.1
    | none => if type = 0 then fileNameType else type
  { s with
    area := if (findRecord tail s name).isSome then removeRecord name s.area else s.area
    attrs := some (dir.insert name (type, value)) }

/-- The records that are kept and one more, in the bytes of the tail. -/
def putRecord (keep : Record → Bool) (r : Record) : Option Node :=
  let kept := copyRecords keep (s.area.take tail)
  let total := kept.length + sdSize r.name.length r.data.length
  if tail < total then none
  else some { s with area := kept ++ encodeRecord r ++ zeros (smallDataSize - total) }

/-- `agfs_setxattr`. -/
def setxattr (value : Bytes) (flags : UInt32) : Except Errno Node :=
  let s := { s with isInline := false }
  let found := findRecord tail s name
  let tree := if found.isSome then none else attrFind s name
  if attrNameMax < name.length then .error .enametoolong
  else if refuseName name then .error .eacces
  else if flags &&& 0xFFFFFFFC ≠ 0 then .error .einval
  else if 0x7FFFFFFF < value.length then .error .enospc
  else if (found.isSome ∨ tree.isSome) ∧ flags &&& 1 ≠ 0 then .error .eexist
  else if found = none ∧ tree = none ∧ flags &&& 2 ≠ 0 then .error .enodata
  else
    let type := match found, tree with
      | some r, _ => r.type
      | none, some attr => attr.1
      | none, none => fileNameType
    match putRecord tail s (fun r => !(found.isSome && decide (r.name = name))) ⟨type, name, value⟩ with
    | none => .ok (attrSet tail s name value type)
    | some s =>
      if tree.isSome then
        match attrRemove s name with
        | .ok s => .ok s
        | .error _ => .ok s
      else .ok s

/-- `agfs_removexattr`. -/
def removexattr : Except Errno Node :=
  if refuseName name then .error .eacces
  else if s.isInline then .error .enodata
  else if (findRecord tail s name).isSome then
    .ok { s with area := removeRecord name (s.area.take tail) ++ s.area.drop tail }
  else attrRemove s name

/-- `agfs_inode_set_name`. -/
def setName (newname : Bytes) : Except Errno Node :=
  match putRecord tail { s with isInline := false } (fun r => !isName r)
      ⟨fileNameType, nameOfName, newname⟩ with
  | none => .error .enospc
  | some s => .ok s

variable (off : Nat) (data : Bytes)

/-- `agfs_inline_write`. -/
def inlineWrite : Node :=
  let base := inlineBase (s.area.take tail)
  let newsize := max s.size (off + data.length)
  let gap := if s.size < off then overwrite s.area (base + s.size) (zeros (off - s.size))
    else s.area
  let written := overwrite gap (base + off) data
  { s with
    area := if base + newsize < inlineMax then
      overwrite written (base + newsize) (zeros (tail - base - newsize)) else written
    size := newsize
    isInline := true }

/-- Whether a write makes an inline file of one that is not. -/
def folds : Bool :=
  !s.isInline && data ≠ [] && s.size = 0 && off = 0 && data.length ≤ inlineMax

/-- `agfs_file_write`. -/
def fileWrite : Node :=
  if (s.isInline ∧ data ≠ [] ∧ off + data.length ≤ inlineMax) ∨ folds s off data then
    inlineWrite tail s off data
  else
    { s with
      size := max s.size (off + data.length) % 2 ^ 32
      isInline := s.isInline && data = [] }

/-- `agfs_truncate`. -/
def truncate (length : Nat) : Node :=
  if s.isInline ∧ length ≤ inlineMax then
    { s with
      area := if length < s.size then
        overwrite s.area (inlineBase (s.area.take tail) + length) (zeros (s.size - length))
        else s.area
      size := length }
  else { s with size := length, isInline := false }

end Calls

/-! ## The machine -/

inductive Label where
  | set (name : AttrName) (value : Bytes) (flags : UInt32)
  | remove (name : AttrName)
  | write (off : Nat) (data : Bytes)
  | truncate (length : Nat)
  | rename (newname : Bytes)

structure Sys where
  node : Node
  /-- What was set and not removed. -/
  map : AttrName → Option Bytes

section Step

variable (tail : Nat)

/-- Calls that succeed. -/
def step (x : Sys) : Label → Option Sys
  | .set name value flags =>
    match xattrName name, setxattr tail x.node name value flags with
    | none, .ok s => some ⟨s, update x.map name (some value)⟩
    | _, _ => none
  | .remove name =>
    match xattrName name, removexattr tail x.node name with
    | none, .ok s => some ⟨s, update x.map name none⟩
    | _, _ => none
  | .write off data => some ⟨fileWrite tail x.node off data, x.map⟩
  | .truncate length => some ⟨truncate tail x.node (length % 2 ^ 32), x.map⟩
  | .rename newname =>
    if newname = [] ∨ attrNameMax < newname.length then none
    else match setName tail x.node newname with
      | .ok s => some ⟨s, x.map⟩
      | .error _ => none

/-- A file that was just created under the name `own`. -/
structure Created (own : Bytes) (x : Sys) : Prop where
  short : own.length ≤ attrNameMax
  area : x.node.area = encodeRecord ⟨fileNameType, nameOfName, own⟩ ++
    zeros (smallDataSize - sdSize 1 own.length)
  isInline : x.node.isInline = false
  attrs : x.node.attrs = none
  map : ∀ name, x.map name = none

/-- No attribute is kept, in the tail or in the attribute directory. -/
def NoAttrs (s : Node) : Prop :=
  (∀ r ∈ records (s.area.take tail), isName r = true) ∧ s.attrs = none

/-- A file becomes inline only if it has no attributes. -/
def SafeLabel (s : Node) : Label → Prop
  | .write off data => folds s off data = true → NoAttrs tail s
  | _ => True

end Step

/-! ## The invariant -/

/-- The value of a name: in the first record of that name, or in the attribute directory. -/
def kept (rs : List Record) (s : Node) (name : AttrName) : Option Bytes :=
  match rs.find? fun r => decide (r.name = name) with
  | some r => some r.data
  | none => (attrFind s name).map (·.2)

/-- The tail holds the records `rs`. -/
structure Tail (tail : Nat) (area : Bytes) (rs : List Record) (rest : Bytes) : Prop where
  bytes : area = encode rs ++ rest
  length : area.length = smallDataSize
  fit : (encode rs).length ≤ tail
  quiet : Quiet rest
  fitting : ∀ r ∈ rs, Fitting r
  nodup : (rs.map (·.name)).Nodup
  /-- The file's name is short. -/
  short : ∀ r ∈ rs, isName r = true → r.data.length ≤ attrNameMax

/-- The inode keeps the map, with the records `rs` in its tail. -/
structure Holds (tail : Nat) (s : Node) (map : AttrName → Option Bytes) (rs : List Record)
    (rest : Bytes) : Prop where
  tail : Tail tail s.area rs rest
  /-- A name is in one place only. -/
  apart : ∀ r ∈ rs, refuseName r.name = false → attrFind s r.name = none
  inlined : s.isInline = true → (∀ r ∈ rs, isName r = true) ∧ s.attrs = none
  maps : ∀ name, refuseName name = false → map name = kept rs s name

def Good (tail : Nat) (s : Node) (map : AttrName → Option Bytes) : Prop :=
  ∃ rs rest, Holds tail s map rs rest

/-! ### The tail -/

theorem length_le_encode (rs : List Record) : rs.length ≤ (encode rs).length := by
  induction rs with
  | nil => simp
  | cons r rs ih =>
    simp [sdSize]
    omega

/-- No two records have one name, so that the first one of a name is the only one. -/
theorem eraseP_name {rs : List Record} (nodup : (rs.map (·.name)).Nodup) (n : AttrName) :
    rs.eraseP (fun r => r.name = n) = rs.filter fun r => !decide (r.name = n) := by
  induction rs with
  | nil => rfl
  | cons r rs ih =>
    rw [map_cons, nodup_cons] at nodup
    by_cases same : r.name = n
    · have others : ∀ q ∈ rs, (!decide (q.name = n)) = true := by
        intro q member
        have : q.name ≠ n := by
          rintro rfl
          exact nodup.1 (mem_map.mpr ⟨q, member, same.symm⟩)
        simpa using this
      rw [eraseP_cons_of_pos (by simpa using same),
        filter_cons_of_neg (by simpa using same), filter_eq_self.mpr others]
    · rw [eraseP_cons_of_neg (by simpa using same),
        filter_cons_of_pos (by simpa using same), ih nodup.2]

theorem find_filter {rs : List Record} {keep : Record → Bool} {n : AttrName}
    (keeps : ∀ r : Record, r.name = n → keep r = true) :
    (rs.filter keep).find? (fun r => decide (r.name = n)) =
      rs.find? fun r => decide (r.name = n) := by
  rw [List.find?_filter]
  congr 1
  funext r
  by_cases same : r.name = n
  · simp [keeps r same]
  · simp [same]

section Tail

variable {tail : Nat} {area : Bytes} {rs : List Record} {rest : Bytes}

variable (holds : Tail tail area rs rest)

include holds

theorem Tail.seen : area.take tail = encode rs ++ rest.take (tail - (encode rs).length) := by
  rw [holds.bytes, take_append, take_of_length_le holds.fit]

theorem Tail.fuel : rs.length ≤ (area.take tail).length := by
  have few := length_le_encode rs
  rw [holds.seen, length_append]
  omega

theorem Tail.records : records (area.take tail) = rs := by
  have fuel := holds.fuel
  rw [holds.seen] at fuel ⊢
  exact recordsFrom_encode holds.fitting (holds.quiet.take _) fuel

theorem Tail.copy (keep : Record → Bool) :
    copyRecords keep (area.take tail) = encode (rs.filter keep) := by
  have fuel := holds.fuel
  rw [holds.seen] at fuel ⊢
  exact copyFrom_encode holds.fitting (holds.quiet.take _) keep fuel

/-- Records that leave room for themselves once more have the inline bytes behind them. -/
theorem Tail.base (most : tail ≤ smallDataSize) (room : 2 * (encode rs).length + 12 ≤ tail) :
    inlineBase (area.take tail) = (encode rs).length + 12 := by
  have few := length_le_encode rs
  have length : (area.take tail).length = tail := by
    rw [length_take, holds.length]
    omega
  rw [inlineBase, length, holds.seen, inlineBaseFrom_encode holds.fitting (holds.quiet.take _)]
  · omega
  · omega
  · rw [holds.seen, length_append] at length
    omega

/-- One short record at most. -/
theorem Tail.named (names : ∀ r ∈ rs, isName r = true) : (encode rs).length ≤ 268 := by
  match rs, names, holds.nodup, holds.short with
  | [], _, _, _ => simp
  | [r], names, _, short =>
    have own : r.name = nameOfName := by simpa [isName] using names r (by simp)
    have limit : r.data.length ≤ 255 := short r (by simp) (names r (by simp))
    simp [own, nameOfName, sdSize]
    omega
  | r :: r' :: _, names, nodup, _ =>
    have first : r.name = nameOfName := by simpa [isName] using names r (by simp)
    have second : r'.name = nameOfName := by simpa [isName] using names r' (by simp)
    simp [first, second] at nodup

/-- Fewer records, with other bytes behind them. -/
theorem Tail.filter {keep : Record → Bool} {area' rest' : Bytes}
    (bytes : area' = encode (rs.filter keep) ++ rest') (length : area'.length = smallDataSize)
    (quiet : Quiet rest') :
    Tail tail area' (rs.filter keep) rest' := by
  have shorter : (encode (rs.filter keep)).length ≤ (encode rs).length :=
    List.Sublist.length_le (filter_sublist.flatMap encodeRecord)
  constructor
  · exact bytes
  · exact length
  · exact Nat.le_trans shorter holds.fit
  · exact quiet
  · intro r member
    exact holds.fitting r (mem_of_mem_filter member)
  · exact holds.nodup.sublist (filter_sublist.map _)
  · intro r member
    exact holds.short r (mem_of_mem_filter member)

/-- The record of a name goes; the bytes from `tail` on may stay where they are. -/
theorem Tail.remove {name : AttrName} {r : Record}
    (found : rs.find? (fun r => decide (r.name = name)) = some r) {whole : Nat}
    (all : (encode rs).length ≤ whole) :
    ∃ rest', Tail tail (removeRecord name (area.take whole) ++ area.drop whole)
      (rs.filter fun r => !decide (r.name = name)) rest' := by
  have few := length_le_encode rs
  have seen : area.take whole = encode rs ++ rest.take (whole - (encode rs).length) := by
    rw [holds.bytes, take_append, take_of_length_le all]
  have removed : removeRecord name (area.take whole) =
      encode (rs.filter fun r => !decide (r.name = name)) ++
        rest.take (whole - (encode rs).length) ++ List.replicate (encodeRecord r).length 0 := by
    rw [seen, removeRecord, removeFrom_encode holds.fitting (by simp; omega) found,
      eraseP_name holds.nodup]
  have count : (removeRecord name (area.take whole)).length = (area.take whole).length :=
    removeFrom_length _ _ _
  refine ⟨rest.take (whole - (encode rs).length) ++
    (List.replicate (encodeRecord r).length 0 ++ area.drop whole), holds.filter ?_ ?_ ?_⟩
  · rw [removed]
    simp
  · rw [length_append, count, ← length_append, take_append_drop]
    exact holds.length
  · apply (holds.quiet.take _).append_zeros
    simp [sdSize]
    omega

end Tail

section Inv

variable {tail : Nat} {s : Node} {map : AttrName → Option Bytes} {rs : List Record}
  {rest : Bytes} {name : AttrName} {keep : Record → Bool} {n : AttrName} {r : Record}
  {s' : Node} {value : Bytes} {x : Sys} {flags type : UInt32} {off : Nat}

theorem Tail.find (holds : Tail tail s.area rs rest) (accessible : refuseName name = false) :
    findRecord tail s name = rs.find? fun r => decide (r.name = name) := by
  rw [findRecord, holds.records]
  congr 1
  funext r
  by_cases same : r.name = name
  · subst same
    have : isName r = false := accessible
    simp [this]
  · simp [same]

theorem putRecord_rest (done : putRecord tail s keep r = some s') :
    s'.isInline = s.isInline ∧ s'.attrs = s.attrs := by
  simp only [putRecord] at done
  split at done
  · cases done
  · cases done
    exact ⟨rfl, rfl⟩

/-- The records that are kept, and one more. -/
theorem putRecord_tail (holds : Tail tail s.area rs rest) (most : tail ≤ smallDataSize)
    (others : ∀ q ∈ rs, q.name = r.name → keep q = false)
    (named : r.name ≠ []) (short : isName r = true → r.data.length ≤ attrNameMax)
    (done : putRecord tail s keep r = some s') :
    ∃ rest', Tail tail s'.area (rs.filter keep ++ [r]) rest' := by
  simp only [putRecord, holds.copy] at done
  split at done
  · cases done
  rename_i room
  cases done
  have total : (encode (rs.filter keep ++ [r])).length =
      (encode (rs.filter keep)).length + sdSize r.name.length r.data.length := by simp
  have members : ∀ q ∈ rs.filter keep ++ [r], q ∈ rs ∨ q = r := by
    intro q member
    simp at member
    tauto
  refine ⟨zeros (smallDataSize - (encode (rs.filter keep ++ [r])).length), ?_⟩
  constructor
  · simp
  · simp [zeros]
    omega
  · omega
  · exact quiet_replicate _
  · intro q member
    rcases members q member with old | rfl
    · exact holds.fitting q old
    · have small : smallDataSize < 2 ^ 16 := by decide
      unfold sdSize at room
      exact ⟨named, by omega, by omega⟩
  · rw [map_append, nodup_append]
    refine ⟨holds.nodup.sublist (filter_sublist.map _), by simp, ?_⟩
    intro n inOld m new same
    simp only [map_cons, map_nil, mem_singleton] at new
    obtain ⟨q, member, rfl⟩ := mem_map.mp inOld
    obtain ⟨old, kept⟩ := mem_filter.mp member
    rw [others q old (same.trans new)] at kept
    cases kept
  · intro q member isName'
    rcases members q member with old | rfl
    · exact holds.short q old isName'
    · exact short isName'

/-! ### The attribute directory -/

theorem attrRemove_spec (done : attrRemove s name = .ok s') :
    s'.area = s.area ∧ s'.isInline = s.isInline ∧
      ∀ n, attrFind s' n = if n = name then none else attrFind s n := by
  unfold attrRemove at done
  cases here : s.attrs with
  | none =>
    rw [here] at done
    cases done
  | some dir =>
    rw [here] at done
    simp only at done
    split at done
    · cases done
    cases done
    refine ⟨rfl, rfl, ?_⟩
    intro n
    have lookup : (dir.erase name).lookup n = if n = name then none else dir.lookup n := by
      by_cases same : n = name
      · subst same
        simp
      · rw [AList.lookup_erase_ne same, if_neg same]
    simp only [attrFind, here, Option.bind_some]
    rw [← lookup]
    split
    · rename_i empty
      have nothing : dir.erase name = ∅ := AList.ext empty
      rw [nothing]
      rfl
    · rfl

/-- The attribute is in the directory, so that its removal from there cannot fail. -/
theorem attrRemove_found (here : (attrFind s name).isSome) : ∃ s', attrRemove s name = .ok s' := by
  unfold attrFind at here
  unfold attrRemove
  cases attrs : s.attrs with
  | none => simp [attrs] at here
  | some dir =>
    cases found : dir.lookup name with
    | none => simp [attrs, found] at here
    | some attr => simp [found]

theorem attrFind_absent (absent : attrFind s name = none) (n : AttrName) :
    attrFind s n = if n = name then none else attrFind s n := by
  split
  · rename_i same
    rw [same, absent]
  · rfl

theorem attrFind_attrSet (value : Bytes) (type : UInt32) (n : AttrName) :
    (attrFind (attrSet tail s name value type) n).map (·.2) =
      if n = name then some value else (attrFind s n).map (·.2) := by
  by_cases same : n = name
  · subst same
    simp [attrFind, attrSet]
  · rw [if_neg same]
    simp only [attrFind, attrSet, Option.bind_some, AList.lookup_insert_ne same]
    cases s.attrs with
    | none => simp
    | some dir => rfl

/-! ### The map -/

theorem kept_filter (keeps : ∀ r : Record, r.name = n → keep r = true)
    (same : (attrFind s' n).map (·.2) = (attrFind s n).map (·.2)) :
    kept (rs.filter keep) s' n = kept rs s n := by
  rw [kept, kept, find_filter keeps, same]

/-- Without a record of the name, the attribute directory answers. -/
theorem kept_dropped (drops : ∀ r ∈ rs, r.name = n → keep r = false) :
    kept (rs.filter keep) s' n = (attrFind s' n).map (·.2) := by
  have absent : (rs.filter keep).find? (fun r => decide (r.name = n)) = none := by
    rw [List.find?_eq_none]
    intro r member named
    obtain ⟨old, kept⟩ := mem_filter.mp member
    rw [drops r old (by simpa using named)] at kept
    cases kept
  rw [kept, absent]

theorem kept_append_other (other : n ≠ r.name) : kept (rs ++ [r]) s n = kept rs s n := by
  have single : [r].find? (fun r => decide (r.name = n)) = none := by
    simpa using fun same => other same.symm
  rw [kept, kept, List.find?_append, single, Option.or_none]

theorem kept_append_same (absent : ∀ q ∈ rs, q.name ≠ name) :
    kept (rs ++ [⟨type, name, value⟩]) s name = some value := by
  have first : rs.find? (fun q => decide (q.name = name)) = none := by simpa using absent
  rw [kept, List.find?_append, first]
  simp

/-- A file that becomes a stream again keeps its attributes. -/
theorem Holds.expanded (holds : Holds tail s map rs rest) (size : Nat) :
    Holds tail { s with size := size, isInline := false } map rs rest := by
  constructor
  · exact holds.tail
  · exact holds.apart
  · intro isInline
    cases isInline
  · exact holds.maps

/-- The record of the name leaves the tail. -/
theorem attrSet_tail (holds : Tail tail s.area rs rest) (accessible : refuseName name = false)
    (value : Bytes) (type : UInt32) :
    ∃ rest', Tail tail (attrSet tail s name value type).area
      (rs.filter fun r => !decide (r.name = name)) rest' := by
  simp only [attrSet, holds.find accessible]
  cases found : rs.find? fun r => decide (r.name = name) with
  | none =>
    have all : rs.filter (fun r => !decide (r.name = name)) = rs := by simpa using found
    rw [all]
    exact ⟨rest, holds⟩
  | some r =>
    have whole := Nat.le_of_eq holds.length
    have room : (encode rs).length ≤ smallDataSize := by
      rw [← holds.length, holds.bytes, length_append]
      omega
    have removed := holds.remove found room
    rw [take_of_length_le whole, drop_of_length_le whole, append_nil] at removed
    exact removed

theorem attrSet_good (holds : Holds tail s map rs rest) (stream : s.isInline = false)
    (accessible : refuseName name = false) (value : Bytes) (type : UInt32) :
    Good tail (attrSet tail s name value type) (update map name (some value)) := by
  have directory : ∀ n, (attrFind (attrSet tail s name value type) n).map (·.2) =
      if n = name then some value else (attrFind s n).map (·.2) := attrFind_attrSet value type
  obtain ⟨rest', tail'⟩ := attrSet_tail holds.tail accessible value type
  refine ⟨_, rest', tail', ?_, ?_, ?_⟩
  · intro r member visible
    obtain ⟨old, other⟩ := mem_filter.mp member
    have other : r.name ≠ name := by simpa using other
    have entry := directory r.name
    rw [if_neg other, holds.apart r old visible] at entry
    simpa using entry
  · intro isInline
    have isInline : s.isInline = true := isInline
    rw [stream] at isInline
    cases isInline
  · intro n accessible'
    by_cases same : n = name
    · subst same
      rw [update_self, kept_dropped (by simp), directory, if_pos rfl]
    · rw [update_of_ne same, holds.maps n accessible']
      apply (kept_filter _ _).symm
      · rintro r rfl
        simpa using same
      · rw [directory, if_neg same]

/-- A record of the name replaces the one there was, in the tail or in the attribute directory. -/
theorem putRecord_good (holds : Holds tail s map rs rest) (most : tail ≤ smallDataSize)
    (stream : s.isInline = false) (accessible : refuseName name = false) (named : name ≠ [])
    (drops : ∀ q ∈ rs, q.name = name → keep q = false)
    (keeps : ∀ q : Record, q.name ≠ name → keep q = true) {s₁ : Node}
    (put : putRecord tail s keep ⟨type, name, value⟩ = some s₁)
    (area : s'.area = s₁.area) (isInline : s'.isInline = s₁.isInline)
    (directory : ∀ n, attrFind s' n = if n = name then none else attrFind s₁ n) :
    Good tail s' (update map name (some value)) := by
  have notName : isName ⟨type, name, value⟩ = false := accessible
  obtain ⟨rest', tail'⟩ := putRecord_tail holds.tail most drops named (by simp [notName]) put
  obtain ⟨sameInline, sameAttrs⟩ := putRecord_rest put
  have others : ∀ n, n ≠ name → attrFind s' n = attrFind s n := by
    intro n other
    rw [directory, if_neg other, attrFind, sameAttrs, attrFind]
  have absent : ∀ q ∈ rs.filter keep, q.name ≠ name := by
    intro q member same
    obtain ⟨old, kept⟩ := mem_filter.mp member
    rw [drops q old same] at kept
    cases kept
  rw [← area] at tail'
  refine ⟨_, rest', tail', ?_, ?_, ?_⟩
  · intro q member visible
    rcases mem_append.mp member with old | new
    · rw [others _ (absent q old)]
      exact holds.apart q (mem_of_mem_filter old) visible
    · obtain rfl := mem_singleton.mp new
      rw [directory, if_pos rfl]
  · intro inlined
    rw [isInline, sameInline, stream] at inlined
    cases inlined
  · intro n accessible'
    by_cases same : n = name
    · subst same
      rw [update_self]
      exact (kept_append_same absent).symm
    · rw [update_of_ne same, kept_append_other same, holds.maps n accessible']
      apply (kept_filter _ _).symm
      · rintro q rfl
        exact keeps q same
      · rw [others n same]

/-- What `agfs_setxattr` leaves: the value is in the attribute directory, or in a record. -/
theorem setxattr_cases (holds : Tail tail s.area rs rest)
    (done : setxattr tail s name value flags = .ok s') :
    refuseName name = false ∧
      ((∃ type, s' = attrSet tail { s with isInline := false } name value type) ∨
        ∃ keep type s₁, putRecord tail { s with isInline := false } keep ⟨type, name, value⟩ =
            some s₁ ∧
          (∀ q ∈ rs, q.name = name → keep q = false) ∧
          (∀ q : Record, q.name ≠ name → keep q = true) ∧
          s'.area = s₁.area ∧ s'.isInline = s₁.isInline ∧
          ((∀ q ∈ rs, q.name = name → attrFind s name = none) →
            ∀ n, attrFind s' n = if n = name then none else attrFind s₁ n)) := by
  unfold setxattr at done
  simp only at done
  iterate 4
    split at done
    · cases done
  rename_i _ refused _ _
  have accessible : refuseName name = false := by simpa using refused
  refine ⟨accessible, ?_⟩
  rw [Tail.find (s := { s with isInline := false }) holds accessible] at done
  cases found : rs.find? fun r => decide (r.name = name) with
  | some r =>
    simp only [found, Option.isSome_some, if_true, reduceCtorEq, false_and, if_false] at done
    split at done
    · cases done
    split at done
    · cases done
      exact .inl ⟨_, rfl⟩
    rename_i s₁ put
    cases done
    refine .inr ⟨_, _, _, put, by simp, by simp, rfl, rfl, fun apart => ?_⟩
    apply attrFind_absent
    rw [attrFind, (putRecord_rest put).2]
    exact apart r (mem_of_find?_eq_some found) (by simpa using List.find?_some found)
  | none =>
    simp only [found, Option.isSome_none, Bool.false_eq_true, if_false] at done
    split at done
    · cases done
    split at done
    · cases done
    split at done
    · cases done
      exact .inl ⟨_, rfl⟩
    rename_i s₁ put
    have others : ∀ q ∈ rs, q.name ≠ name := by simpa using found
    have directory : attrFind s₁ name = attrFind s name := by
      rw [attrFind, (putRecord_rest put).2, attrFind]
    -- a record that is new displaces the file of that name
    have removed : s'.area = s₁.area ∧ s'.isInline = s₁.isInline ∧
        ∀ n, attrFind s' n = if n = name then none else attrFind s₁ n := by
      split at done
      · rename_i inTree
        obtain ⟨s₂, gone⟩ := attrRemove_found (directory ▸ inTree)
        rw [gone] at done
        cases done
        exact attrRemove_spec gone
      · rename_i inTree
        cases done
        refine ⟨rfl, rfl, attrFind_absent ?_⟩
        rw [directory]
        exact Option.not_isSome_iff_eq_none.mp inTree
    refine .inr ⟨_, _, _, put, ?_, by simp, removed.1, removed.2.1, fun _ => removed.2.2⟩
    intro q member same
    exact absurd same (others q member)

theorem setxattr_good (good : Good tail s map) (most : tail ≤ smallDataSize) (named : name ≠ [])
    (done : setxattr tail s name value flags = .ok s') :
    Good tail s' (update map name (some value)) := by
  obtain ⟨rs, rest, holds⟩ := good
  have holds := holds.expanded s.size
  obtain ⟨accessible, ⟨type, rfl⟩ | ⟨keep, type, s₁, put, drops, keeps, area, isInline, directory⟩⟩ :=
    setxattr_cases holds.tail done
  · exact attrSet_good holds rfl accessible value type
  · refine putRecord_good holds most rfl accessible named drops keeps put area isInline
      (directory fun q member same => ?_)
    rw [← same]
    exact holds.apart q member (same ▸ accessible)

theorem removexattr_good (good : Good tail s map)
    (done : removexattr tail s name = .ok s') : Good tail s' (update map name none) := by
  obtain ⟨rs, rest, holds⟩ := good
  unfold removexattr at done
  iterate 2
    split at done
    · cases done
  rename_i refused stream
  have accessible : refuseName name = false := by simpa using refused
  have stream : s.isInline = false := by simpa using stream
  -- in both places the other names stay
  have without : ∀ rest', Tail tail s'.area (rs.filter fun r => !decide (r.name = name)) rest' →
      s'.isInline = s.isInline →
      (∀ n, attrFind s' n = if n = name then none else attrFind s n) →
      Good tail s' (update map name none) := by
    intro rest' tail' isInline directory
    refine ⟨_, rest', tail', ?_, ?_, ?_⟩
    · intro r member visible
      rw [directory, holds.apart r (mem_of_mem_filter member) visible]
      simp
    · intro inlined
      rw [isInline, stream] at inlined
      cases inlined
    · intro n accessible'
      by_cases same : n = name
      · subst same
        rw [update_self, kept_dropped (by simp), directory, if_pos rfl]
        rfl
      · rw [update_of_ne same, holds.maps n accessible']
        apply (kept_filter _ _).symm
        · rintro r rfl
          simpa using same
        · rw [directory, if_neg same]
  rw [holds.tail.find accessible] at done
  cases found : rs.find? fun r => decide (r.name = name) with
  | some r =>
    simp only [found] at done
    cases done
    obtain ⟨rest', tail'⟩ := holds.tail.remove found holds.tail.fit
    apply without rest' tail' rfl
    apply attrFind_absent
    have own : r.name = name := by simpa using List.find?_some found
    rw [← own]
    exact holds.apart r (mem_of_find?_eq_some found) (own ▸ accessible)
  | none =>
    simp only [found] at done
    obtain ⟨area, isInline, directory⟩ := attrRemove_spec done
    have all : rs.filter (fun r => !decide (r.name = name)) = rs := by simpa using found
    apply without rest _ isInline directory
    rw [area, all]
    exact holds.tail

theorem setName_good (good : Good tail s map) (most : tail ≤ smallDataSize)
    {newname : Bytes} (short : newname.length ≤ attrNameMax)
    (done : setName tail s newname = .ok s') : Good tail s' map := by
  obtain ⟨rs, rest, holds⟩ := good
  have holds := holds.expanded s.size
  unfold setName at done
  cases put : putRecord tail { s with isInline := false } (fun r => !isName r)
      ⟨fileNameType, nameOfName, newname⟩ with
  | none =>
    rw [put] at done
    cases done
  | some s₁ =>
    rw [put] at done
    cases done
    obtain ⟨isInline, attrs⟩ := putRecord_rest put
    have drops : ∀ q ∈ rs, q.name = nameOfName → (!isName q) = false := by
      intro q _ own
      simp [isName, own]
    obtain ⟨rest', tail'⟩ :=
      putRecord_tail holds.tail most drops (by simp [nameOfName]) (fun _ => short) put
    have directory : ∀ n, attrFind s' n = attrFind s n := by
      intro n
      rw [attrFind, attrs, attrFind]
    refine ⟨_, rest', tail', ?_, ?_, ?_⟩
    · intro q member visible
      rw [directory]
      rcases mem_append.mp member with old | new
      · exact holds.apart q (mem_of_mem_filter old) visible
      · obtain rfl := mem_singleton.mp new
        cases visible
    · intro inlined
      rw [isInline] at inlined
      cases inlined
    · intro n visible
      have other : n ≠ nameOfName := by simpa [refuseName] using visible
      rw [holds.maps n visible, kept_append_other other]
      apply (kept_filter _ _).symm
      · rintro q rfl
        simpa [isName] using other
      · rw [directory]
        rfl

/-! ### Writes and truncations -/

theorem overwrite_length (p : Bytes) (off : Nat) (bytes : Bytes) :
    (overwrite p off bytes).length = p.length := by
  simp [overwrite]
  omega

/-- Bytes that are written from `off` on leave those before alone. -/
theorem overwrite_before (p : Bytes) {i : Nat} (bytes : Bytes) (before : i < off) :
    (overwrite p off bytes)[i]? = p[i]? := by
  by_cases inside : i < p.length
  · rw [overwrite, List.getElem?_take_of_lt inside, append_assoc,
      List.getElem?_append_left (by simp; omega), List.getElem?_take_of_lt before]
  · rw [List.getElem?_eq_none (by rw [overwrite_length]; omega), List.getElem?_eq_none (by omega)]

/-- The records stay, if nothing is written before the place of the inline bytes. -/
theorem Tail.behind {area area' : Bytes} (holds : Tail tail area rs rest)
    (length : area'.length = area.length)
    (before : ∀ i < (encode rs).length + 12, area'[i]? = area[i]?) :
    ∃ rest', Tail tail area' rs rest' := by
  have front : area'.take (encode rs).length = encode rs := by
    have own : area.take (encode rs).length = encode rs := by rw [holds.bytes, take_left]
    conv_rhs => rw [← own]
    apply ext_getElem?
    intro i
    rw [List.getElem?_take, List.getElem?_take]
    split
    · exact before i (by omega)
    · rfl
  refine ⟨area'.drop (encode rs).length, ?_, ?_, holds.fit, ?_, holds.fitting, holds.nodup,
    holds.short⟩
  · conv_lhs => rw [← take_append_drop (encode rs).length area', front]
  · rw [length]
    exact holds.length
  · intro i small b here
    rw [List.getElem?_drop, before _ (by omega), holds.bytes,
      List.getElem?_append_right (by omega), Nat.add_sub_cancel_left] at here
    exact holds.quiet i small b here

theorem inlineWrite_bytes (off : Nat) (data : Bytes) :
    (inlineWrite tail s off data).area.length = s.area.length ∧
      ∀ i < inlineBase (s.area.take tail), (inlineWrite tail s off data).area[i]? = s.area[i]? := by
  constructor
  · simp only [inlineWrite]
    split <;> split <;> simp only [overwrite_length]
  · intro i before
    simp only [inlineWrite]
    split <;> split <;> simp only [overwrite_before _ _ (Nat.lt_add_right _ before)]

/-- An inline file, or one that can become inline, whose bytes change behind the records. -/
theorem Holds.rewritten (holds : Holds tail s map rs rest) (large : 792 ≤ tail)
    (most : tail ≤ smallDataSize) (names : ∀ r ∈ rs, isName r = true) (noAttrs : s.attrs = none)
    (attrs : s'.attrs = s.attrs) (length : s'.area.length = s.area.length)
    (before : ∀ i < inlineBase (s.area.take tail), s'.area[i]? = s.area[i]?) :
    Good tail s' map := by
  have few := holds.tail.named names
  rw [holds.tail.base most (by omega)] at before
  obtain ⟨rest', tail'⟩ := holds.tail.behind length before
  have directory : ∀ n, attrFind s' n = attrFind s n := by
    intro n
    rw [attrFind, attrs, attrFind]
  refine ⟨rs, rest', tail', ?_, ?_, ?_⟩
  · intro r member visible
    rw [directory]
    exact holds.apart r member visible
  · intro _
    exact ⟨names, attrs.trans noAttrs⟩
  · intro n visible
    rw [holds.maps n visible, kept, kept, directory]

theorem fileWrite_good (good : Good tail s map) (large : 792 ≤ tail) (most : tail ≤ smallDataSize)
    {data : Bytes} (safe : folds s off data = true → NoAttrs tail s) :
    Good tail (fileWrite tail s off data) map := by
  obtain ⟨rs, rest, holds⟩ := good
  rw [fileWrite]
  split
  · rename_i inline
    have empty : (∀ r ∈ rs, isName r = true) ∧ s.attrs = none := by
      rcases inline with ⟨isInline, -⟩ | folded
      · exact holds.inlined isInline
      · have none := safe folded
        rwa [NoAttrs, holds.tail.records] at none
    exact holds.rewritten large most empty.1 empty.2 rfl (inlineWrite_bytes off data).1
      (inlineWrite_bytes off data).2
  · refine ⟨rs, rest, holds.tail, holds.apart, ?_, holds.maps⟩
    intro isInline
    simp only [Bool.and_eq_true] at isInline
    exact holds.inlined isInline.1

theorem truncate_good (good : Good tail s map) (large : 792 ≤ tail) (most : tail ≤ smallDataSize)
    (length : Nat) : Good tail (truncate tail s length) map := by
  obtain ⟨rs, rest, holds⟩ := good
  rw [truncate]
  split
  · rename_i inline
    obtain ⟨names, noAttrs⟩ := holds.inlined inline.1
    refine holds.rewritten large most names noAttrs rfl ?_ ?_
    · split
      · exact overwrite_length _ _ _
      · rfl
    · intro i before
      split
      · exact overwrite_before _ _ (Nat.lt_add_right _ before)
      · rfl
  · exact ⟨rs, rest, holds.expanded length⟩

theorem step_good (large : 792 ≤ tail) (most : tail ≤ smallDataSize) {y : Sys} {l : Label}
    (good : Good tail x.node x.map) (safe : SafeLabel tail x.node l)
    (step : step tail x l = some y) : Good tail y.node y.map := by
  cases l with
  | set name value flags =>
    simp only [Xattr.step] at step
    split at step
    · rename_i _ _ s fine done
      cases step
      exact setxattr_good good most (by rintro rfl; cases fine) done
    · cases step
  | remove name =>
    simp only [Xattr.step] at step
    split at step
    · rename_i _ _ s fine done
      cases step
      exact removexattr_good good done
    · cases step
  | write off data =>
    cases step
    exact fileWrite_good good large most safe
  | truncate length =>
    cases step
    exact truncate_good good large most _
  | rename newname =>
    simp only [Xattr.step] at step
    split at step
    · cases step
    split at step
    · rename_i done
      cases step
      exact setName_good good most (by omega) done
    · cases step

theorem Created.good {own : Bytes} (created : Created own x) (large : 792 ≤ tail) :
    Good tail x.node x.map := by
  have size : smallDataSize = 3864 := rfl
  have limit : own.length ≤ 255 := created.short
  have first : encode [⟨fileNameType, nameOfName, own⟩] =
      encodeRecord ⟨fileNameType, nameOfName, own⟩ := by simp
  have length : (encodeRecord ⟨fileNameType, nameOfName, own⟩).length = 13 + own.length := by
    simp [nameOfName, sdSize]
    omega
  refine ⟨[⟨fileNameType, nameOfName, own⟩], zeros (smallDataSize - sdSize 1 own.length),
    ⟨?_, ?_, ?_, quiet_replicate _, ?_, ?_, ?_⟩, ?_, ?_, ?_⟩
  · rw [first]
    exact created.area
  · rw [created.area, length_append, length]
    simp [zeros, sdSize]
    omega
  · rw [first]
    omega
  · simp only [mem_singleton, forall_eq]
    exact ⟨by simp [nameOfName], by simp [nameOfName], by simp only; omega⟩
  · simp
  · simp only [mem_singleton, forall_eq]
    exact fun _ => created.short
  · simp only [mem_singleton, forall_eq]
    intro visible
    cases visible
  · intro isInline
    rw [created.isInline] at isInline
    cases isInline
  · intro name visible
    have other : ¬ nameOfName = name := by
      rintro rfl
      cases visible
    rw [created.map, kept]
    simp [other, attrFind, created.attrs]

end Inv

/-- A new file of the name `f`. -/
def newFile : Sys where
  node :=
    { size := 0
      isInline := false
      area := encodeRecord ⟨fileNameType, nameOfName, [102]⟩ ++ zeros (smallDataSize - sdSize 1 1)
      attrs := none }
  map _ := none

theorem newFile_created : Created [102] newFile := ⟨by decide, rfl, rfl, rfl, fun _ => rfl⟩

def safeTest (x : Sys) : Label → Bool
  | .write off data => !folds x.node off data || (records (x.node.area.take 792)).all isName &&
      x.node.attrs.isNone
  | _ => true

theorem safeTest_sound (x : Sys) (l : Label) (passed : safeTest x l = true) :
    SafeLabel 792 x.node l := by
  cases l with
  | write off data =>
    intro folded
    simp only [safeTest, folded] at passed
    simpa [NoAttrs] using passed
  | set | remove | truncate | rename => trivial

end Argentum.Agfs.Xattr
