/-
# Kernel.Acl — access control lists, and the mode bits as a view of them

An inode has mode bits and, as extended attributes, an access ACL and (a directory) a
default ACL. Each call that changes them rewrites the list, the mode or both with a function
of `kernel/acl.c` of its own.

`Projects` is what they have to agree on: the owner bits of the mode are those of `USER_OBJ`,
the group bits those of `MASK`, or of `GROUP_OBJ` if there is no mask, the other bits those of
`OTHER`. `mode_projects_acl` says that they do, for every stored access ACL in every state that
calls that succeed reach from inodes without ACLs.
-/
import Mathlib.Tactic.IntervalCases
import Argentum.Lib.Machine
import Argentum.Kernel.Errno

namespace Argentum.Kernel.Acl

open Lib.Machine List

/-! ## Modes -/

/-- `__mode_t`; permissions and tags have the same width. -/
abbrev Mode := BitVec 16

/-- `S_IFMT`. -/
def typeMask : Mode := 0o170000#16

/-- `S_IFDIR`. -/
def typeDir : Mode := 0o040000#16

/-- `S_IFREG`. -/
def typeReg : Mode := 0o100000#16

/-- `S_ISVTX`. -/
def sticky : Mode := 0o1000#16

/-- `S_IRWXU`. -/
def rwxUser : Mode := 0o700#16

/-- `S_IRWXG`. -/
def rwxGroup : Mode := 0o070#16

/-- `S_IRWXO`. -/
def rwxOther : Mode := 0o007#16

def rwxAll : Mode := rwxUser ||| rwxGroup ||| rwxOther

section

variable (mode : Mode)

def ownerBits : Mode := (mode >>> 6) &&& 7

def groupBits : Mode := (mode >>> 3) &&& 7

def otherBits : Mode := mode &&& 7

/-- The low bits of a mode, from the permissions of the three classes. -/
def classBits (owner group other : Mode) : Mode := (owner <<< 6) ||| (group <<< 3) ||| other

/-- `S_ISDIR`. -/
def isDir : Bool := mode &&& typeMask = typeDir

/-! ## Entries -/

/-- `struct acl_xattr_entry`. -/
structure Entry where
  tag : BitVec 16
  perm : Mode
  id : BitVec 32
  deriving DecidableEq

def userObj : BitVec 16 := 0x01
def user : BitVec 16 := 0x02
def groupObj : BitVec 16 := 0x04
def group : BitVec 16 := 0x08
def mask : BitVec 16 := 0x10
def other : BitVec 16 := 0x20

/-- `ACL_UNDEFINED_ID`. -/
def undefinedId : BitVec 32 := 0xFFFFFFFF

/-- `ACL_MAX_ENTRIES`. -/
def maxEntries : Nat := 32

/-- `sizeof(struct acl_xattr_entry)`. -/
def entrySize : Nat := 8

/-- `ACL_XATTR_SZ`. -/
def xattrSize : Nat := maxEntries * entrySize

/-- The value of an ACL attribute: its entries, and the number of bytes behind the last one. -/
structure Value where
  entries : List Entry
  rest : Fin 8
  deriving DecidableEq

variable (stored : Option Value) (v : Value) (flags : BitVec 32)

def Value.size : Nat := entrySize * v.entries.length + v.rest

/-- The permissions of the entries with a tag. -/
def permsOf (tag : BitVec 16) (entries : List Entry) : List Mode :=
  (entries.filter fun e => e.tag = tag).map Entry.perm

/-! ## Validation -/

/-- What `acl_validate` has seen so far. -/
structure Seen where
  userObj : Bool := false
  groupObj : Bool := false
  mask : Bool := false
  other : Bool := false
  namedUid : Bool := false
  namedGid : Bool := false
  lastUid : BitVec 32 := 0
  lastGid : BitVec 32 := 0
  deriving DecidableEq

/-- One turn of the loop of `acl_validate`, for entry `n` of `nents`. -/
def validateEntry (nents n : Nat) (s : Seen) (e : Entry) : Option Seen :=
  if e.perm &&& ~~~7 ≠ 0 then none
  else if e.tag = userObj then
    if s.userObj || n ≠ 0 then none else some { s with userObj := true }
  else if e.tag = user then
    if !s.userObj || s.groupObj then none
    else if e.id = undefinedId then none
    else if s.namedUid && e.id ≤ s.lastUid then none
    else some { s with lastUid := e.id, namedUid := true }
  else if e.tag = groupObj then
    if !s.userObj || s.groupObj then none else some { s with groupObj := true }
  else if e.tag = group then
    if !s.groupObj || s.mask then none
    else if e.id = undefinedId then none
    else if s.namedGid && e.id ≤ s.lastGid then none
    else some { s with lastGid := e.id, namedGid := true }
  else if e.tag = mask then
    if s.mask || !s.groupObj then none else some { s with mask := true }
  else if e.tag = other then
    if s.other || !s.groupObj || n ≠ nents - 1 then none else some { s with other := true }
  else none

def validateFrom (nents : Nat) : Nat → Seen → List Entry → Option Seen
  | _, s, [] => some s
  | n, s, e :: entries =>
    (validateEntry nents n s e).bind fun s' => validateFrom nents (n + 1) s' entries

/-- `acl_validate`. -/
def aclValidate : Option Errno :=
  let nents := v.size / entrySize
  if v.size = 0 ∨ v.size % entrySize ≠ 0 then some .einval
  else if nents < 3 ∨ nents > maxEntries then some .einval
  else match validateFrom nents 0 {} v.entries with
    | none => some .einval
    | some s =>
      if !s.userObj || !s.groupObj || !s.other then some .einval
      else if (s.namedUid || s.namedGid) && !s.mask then some .einval
      else none

/-! ## Lists and modes -/

/-- What `acl_sync_mode` and `acl_equiv_mode` collect. -/
structure Classes where
  owner : Mode := 0
  group : Mode := 0
  mask : Mode := 0
  other : Mode := 0
  haveMask : Bool := false
  deriving DecidableEq

def Classes.see (c : Classes) (e : Entry) : Classes :=
  if e.tag = userObj then { c with owner := e.perm }
  else if e.tag = groupObj then { c with group := e.perm }
  else if e.tag = Acl.mask then { c with mask := e.perm, haveMask := true }
  else if e.tag = Acl.other then { c with other := e.perm }
  else c

def classes (entries : List Entry) : Classes := entries.foldl Classes.see {}

/-- `acl_sync_mode`. -/
def aclSyncMode : Mode :=
  if v.size = 0 ∨ v.size % entrySize ≠ 0 then mode
  else
    let c := classes v.entries
    (mode &&& ~~~rwxAll) ||| classBits c.owner (if c.haveMask then c.mask else c.group) c.other

/-- The entry is a named user or group, or nothing that is known. -/
def Entry.isNamed (e : Entry) : Bool :=
  e.tag ≠ userObj && e.tag ≠ groupObj && e.tag ≠ mask && e.tag ≠ other

/-- `acl_equiv_mode`: the projection, if the list says no more than it. -/
def aclEquivMode : Option Mode :=
  if v.size = 0 ∨ v.size % entrySize ≠ 0 ∨ v.size < 3 * entrySize then none
  else if v.entries.any Entry.isNamed then none
  else
    let c := classes v.entries
    if c.haveMask ∧ c.mask ≠ c.group then none else some (classBits c.owner c.group c.other)

/-- What `acl_chmod` makes of an entry. -/
def chmodEntry (haveMask : Bool) (mode : Mode) (e : Entry) : Entry :=
  if e.tag = userObj then { e with perm := (mode >>> 6) &&& 7 }
  else if e.tag = groupObj then if haveMask then e else { e with perm := (mode >>> 3) &&& 7 }
  else if e.tag = mask then { e with perm := (mode >>> 3) &&& 7 }
  else if e.tag = other then { e with perm := mode &&& 7 }
  else e

/-! ## Inheritance -/

/-- The loop of `acl_default_masq`, which narrows the owner's and the others' entry and the mode
with them. -/
def masqLoop (rwx : Mode) : List Entry → Mode × List Entry
  | [] => (rwx, [])
  | e :: entries =>
    if e.tag = userObj then
      let perm := e.perm &&& ((rwx >>> 6) &&& 7)
      let done := masqLoop ((rwx &&& ~~~rwxUser) ||| (perm <<< 6)) entries
      (done.1, { e with perm := perm } :: done.2)
    else if e.tag = other then
      let perm := e.perm &&& (rwx &&& 7)
      let done := masqLoop ((rwx &&& ~~~rwxOther) ||| perm) entries
      (done.1, { e with perm := perm } :: done.2)
    else
      let done := masqLoop rwx entries
      (done.1, e :: done.2)

/-- An entry is written through the pointer that the loop has left at the last one with the tag. -/
def setLast (tag : BitVec 16) (perm : Mode) : List Entry → List Entry
  | [] => []
  | e :: entries =>
    if entries.any fun e => e.tag = tag then e :: setLast tag perm entries
    else if e.tag = tag then { e with perm := perm } :: entries
    else e :: entries

/-- What the code after the loop does with `mask_obj` or `group_obj`. -/
def narrow (tag : BitVec 16) (perm rwx : Mode) (entries : List Entry) : Mode × List Entry :=
  let perm := perm &&& ((rwx >>> 3) &&& 7)
  ((rwx &&& ~~~rwxGroup) ||| (perm <<< 3), setLast tag perm entries)

structure Masqued where
  mode : Mode
  entries : List Entry
  nontrivial : Bool

/-- `acl_default_masq`, for a buffer that is as large as a value can be. -/
def aclDefaultMasq (dfl : Value) (mode : Mode) : Masqued :=
  if dfl.size < 3 * entrySize ∨ dfl.size % entrySize ≠ 0 ∨ xattrSize < dfl.size then ⟨mode, [], false⟩
  else
    let looped := masqLoop (mode &&& rwxAll) dfl.entries
    let done := match (permsOf mask looped.2).getLast?, (permsOf groupObj looped.2).getLast? with
      | some perm, _ => narrow mask perm looped.1 looped.2
      | none, some perm => narrow groupObj perm looped.1 looped.2
      | none, none => looped
    ⟨(mode &&& ~~~rwxAll) ||| done.1, done.2,
      dfl.entries.any fun e => e.tag = mask || e.tag = user || e.tag = group⟩

/-! ## Inodes -/

structure Inode where
  mode : Mode
  /-- `system.posix_acl_access`. -/
  access : Option Value
  /-- `system.posix_acl_default`. -/
  default : Option Value
  deriving DecidableEq

inductive AclName where
  | access
  | default
  deriving DecidableEq

variable (i : Inode)

/-- `fsop->getxattr` into a buffer of some size. -/
def getxattr (size : Nat) : Except Errno Value :=
  match stored with
  | none => .error .enodata
  | some v => if size < v.size then .error .erange else .ok v

/-- `XATTR_CREATE`. -/
def xattrCreate : BitVec 32 := 1

/-- `XATTR_REPLACE`. -/
def xattrReplace : BitVec 32 := 2

def flagsError : Option Errno :=
  if flags &&& xattrCreate ≠ 0 ∧ stored.isSome then some .eexist
  else if flags &&& xattrReplace ≠ 0 ∧ stored.isNone then some .enodata
  else none

/-- `fsop->setxattr`, with a medium that may fail. -/
def setxattr (fails : Bool) : Except Errno (Option Value) :=
  if flags &&& ~~~(xattrCreate ||| xattrReplace) ≠ 0 then .error .einval
  else match flagsError stored flags with
    | some e => .error e
    | none => if fails then .error .eio else .ok (some v)

/-- `fsop->removexattr`. -/
def removexattr (fails : Bool) : Except Errno (Option Value) :=
  match stored with
  | none => .error .enodata
  | some _ => if fails then .error .eio else .ok none

/-- The trivial list of `do_setxattr`: the stored one goes, and the mode says it all. -/
def setTrivial (amode : Mode) (flags : BitVec 32) (fails : Bool) : Except Errno Inode :=
  match flagsError i.access flags with
  | some e => .error e
  | none =>
    let mode := (i.mode &&& ~~~rwxAll) ||| amode
    match removexattr i.access fails with
    | .error .enodata => .ok { i with mode := mode }
    | .error e => .error e
    | .ok stored => .ok { i with mode := mode, access := stored }

/-- `do_setxattr`. -/
def doSetxattr (name : AclName) (v : Value) (flags : BitVec 32)
    (fails : Bool) : Except Errno Inode :=
  if name = .default ∧ !isDir i.mode then .error .einval
  else if v.size = 0 then .error .einval
  else match aclValidate v with
    | some e => .error e
    | none =>
      match name with
      | .access =>
        match aclEquivMode v with
        | some amode => setTrivial i amode flags fails
        | none =>
          (setxattr i.access v flags fails).map fun stored =>
            { i with access := stored, mode := aclSyncMode i.mode v }
      | .default => (setxattr i.default v flags fails).map fun stored => { i with default := stored }

/-- `do_removexattr`. -/
def doRemovexattr (name : AclName) (fails : Bool) : Except Errno Inode :=
  if name = .default ∧ !isDir i.mode then .error .einval
  else match name with
    | .access => (removexattr i.access fails).map fun stored => { i with access := stored }
    | .default => (removexattr i.default fails).map fun stored => { i with default := stored }

/-- `acl_chmod`: the access ACL that is stored afterwards. -/
def aclChmod (mode : Mode) (fails : Bool) : Except Errno (Option Value) :=
  match getxattr i.access xattrSize with
  | .error .enodata => .ok i.access
  | .error e => .error e
  | .ok v =>
    if v.size = 0 ∨ v.size % entrySize ≠ 0 then .error .eio
    else if v.size / entrySize > maxEntries then .error .eio
    else if aclValidate v ≠ none then .error .eio
    else
      let haveMask := v.entries.any fun e => e.tag = mask
      setxattr i.access { v with entries := v.entries.map (chmodEntry haveMask mode) } 0 fails

/-- `sys_chmod`, `sys_fchmod` and `sys_fchmodat`. -/
def sysChmod (mode : Mode) (fails : Bool) : Except Errno Inode :=
  (aclChmod i mode fails).map fun stored =>
    { i with access := stored, mode := (i.mode &&& typeMask) ||| (mode &&& ~~~typeMask) }

end

/-- `acl_inherit_default`. That an attribute could not be stored is not reported. -/
def aclInheritDefault (dir i : Inode) (mode : Mode) (newDir : Bool)
    (failAccess failDefault : Bool) : Inode :=
  match getxattr dir.default xattrSize with
  | .error _ => i
  | .ok dfl =>
    if dfl.size = 0 ∨ dfl.size % entrySize ≠ 0 then i
    else
      let masqued := aclDefaultMasq dfl mode
      let acc := { dfl with entries := masqued.entries }
      { mode := (i.mode &&& ~~~rwxAll) ||| (masqued.mode &&& rwxAll)
        access := if masqued.nontrivial then
            ((setxattr i.access acc 0 failAccess).toOption).getD i.access else i.access
        default := if newDir then
            ((setxattr i.default dfl 0 failDefault).toOption).getD i.default else i.default }

/-- The mode that `agfs_create` or `agfs_mkdir` gives. -/
def newMode (newDir : Bool) (mode umask : Mode) : Mode :=
  if newDir then ((mode &&& (rwxAll ||| sticky)) &&& ~~~umask) ||| typeDir
  else ((mode &&& ~~~umask) &&& ~~~typeMask) ||| typeReg

/-! ## The machine -/

abbrev State := Nat → Option Inode

inductive Label where
  | setxattr (ino : Nat) (name : AclName) (v : Value) (flags : BitVec 32) (fails : Bool)
  | removexattr (ino : Nat) (name : AclName) (fails : Bool)
  | chmod (ino : Nat) (mode : Mode) (fails : Bool)
  | create (dir ino : Nat) (newDir : Bool) (mode umask : Mode) (failAccess failDefault : Bool)

/-- A call that changes one inode. -/
def update (s : State) (ino : Nat) (f : Inode → Except Errno Inode) : Option State :=
  (s ino).bind fun i => (f i).toOption.map fun i' => Function.update s ino (some i')

/-- Calls that succeed. -/
def step (s : State) : Label → Option State
  | .setxattr ino name v flags fails => update s ino fun i => doSetxattr i name v flags fails
  | .removexattr ino name fails => update s ino fun i => doRemovexattr i name fails
  | .chmod ino mode fails => update s ino fun i => sysChmod i mode fails
  | .create dir ino newDir mode umask failAccess failDefault =>
    match s dir, s ino with
    | some d, none =>
      let i := aclInheritDefault d ⟨newMode newDir mode umask, none, none⟩ mode newDir failAccess
        failDefault
      some (Function.update s ino (some i))
    | _, _ => none

/-! ## Bits -/

/-- Only the bits `rwx`; what `acl_validate` asks of the permissions of an entry. -/
def IsPerm (perm : Mode) : Prop := perm &&& ~~~7 = 0

section Bits

variable {m m' o g p : Mode}

theorem IsPerm.bit (small : IsPerm p) (i : Nat) (lt : i < 16) (high : 3 ≤ i) : p[i] = false := by
  have bit := congrArg (fun b : Mode => b[i]) small
  interval_cases i <;> simpa using bit

theorem IsPerm.and (small : IsPerm p) (m : Mode) : IsPerm (p &&& m) := by
  unfold IsPerm at small ⊢
  rw [BitVec.and_assoc, BitVec.and_comm m, ← BitVec.and_assoc, small]
  simp

/-- The classes are the lowest nine bits. -/
theorem classes_congr (same : ∀ i (lt : i < 9), m[i] = m'[i]) :
    ownerBits m = ownerBits m' ∧ groupBits m = groupBits m' ∧ otherBits m = otherBits m' := by
  refine ⟨?_, ?_, ?_⟩
  all_goals
    apply BitVec.eq_of_getElem_eq
    intro i lt
    interval_cases i <;> simp [ownerBits, groupBits, otherBits, same]

theorem classes_classBits (own : IsPerm o) (grp : IsPerm g) (oth : IsPerm p) :
    let mode := (m &&& ~~~rwxAll) ||| classBits o g p
    ownerBits mode = o ∧ groupBits mode = g ∧ otherBits mode = p := by
  refine ⟨?_, ?_, ?_⟩
  all_goals
    apply BitVec.eq_of_getElem_eq
    intro i lt
    interval_cases i <;>
      simp [ownerBits, groupBits, otherBits, classBits, rwxAll, rwxUser, rwxGroup, rwxOther, own.bit,
        grp.bit, oth.bit]

/-- One class is written and the other two stay. -/
theorem classes_setOwner (small : IsPerm p) :
    let mode := (m &&& ~~~rwxUser) ||| (p <<< 6)
    ownerBits mode = p ∧ groupBits mode = groupBits m ∧ otherBits mode = otherBits m := by
  refine ⟨?_, ?_, ?_⟩
  all_goals
    apply BitVec.eq_of_getElem_eq
    intro i lt
    interval_cases i <;> simp [ownerBits, groupBits, otherBits, rwxUser, small.bit]

theorem classes_setGroup (small : IsPerm p) :
    let mode := (m &&& ~~~rwxGroup) ||| (p <<< 3)
    ownerBits mode = ownerBits m ∧ groupBits mode = p ∧ otherBits mode = otherBits m := by
  refine ⟨?_, ?_, ?_⟩
  all_goals
    apply BitVec.eq_of_getElem_eq
    intro i lt
    interval_cases i <;> simp [ownerBits, groupBits, otherBits, rwxGroup, small.bit]

theorem classes_setOther (small : IsPerm p) :
    let mode := (m &&& ~~~rwxOther) ||| p
    ownerBits mode = ownerBits m ∧ groupBits mode = groupBits m ∧ otherBits mode = p := by
  refine ⟨?_, ?_, ?_⟩
  all_goals
    apply BitVec.eq_of_getElem_eq
    intro i lt
    interval_cases i <;> simp [ownerBits, groupBits, otherBits, rwxOther, small.bit]

end Bits

/-! ## Lists that pass -/

/-- The mode shows the list. -/
structure Projects (mode : Mode) (entries : List Entry) : Prop where
  owner : permsOf userObj entries = [ownerBits mode]
  group : permsOf mask entries = [groupBits mode] ∨
    permsOf mask entries = [] ∧ permsOf groupObj entries = [groupBits mode]
  other : permsOf Acl.other entries = [otherBits mode]

/-- What `acl_validate` establishes. -/
structure Canonical (entries : List Entry) : Prop where
  owner : (permsOf userObj entries).length = 1
  group : (permsOf groupObj entries).length = 1
  mask : (permsOf mask entries).length ≤ 1
  other : (permsOf other entries).length = 1
  perms : ∀ e ∈ entries, IsPerm e.perm

theorem Canonical.mask_cases {entries : List Entry} (canonical : Canonical entries) :
    permsOf Acl.mask entries = [] ∨ ∃ q, permsOf Acl.mask entries = [q] := by
  rw [← length_eq_zero_iff, ← length_eq_one_iff]
  exact Nat.le_one_iff_eq_zero_or_eq_one.mp canonical.mask

theorem Canonical.singles {entries : List Entry} (canonical : Canonical entries) :
    ∃ o g p, permsOf userObj entries = [o] ∧ permsOf groupObj entries = [g] ∧
      permsOf Acl.other entries = [p] := by
  obtain ⟨o, owners⟩ := length_eq_one_iff.mp canonical.owner
  obtain ⟨g, groups⟩ := length_eq_one_iff.mp canonical.group
  obtain ⟨p, others⟩ := length_eq_one_iff.mp canonical.other
  exact ⟨o, g, p, owners, groups, others⟩

theorem permsOf_cons (tag : BitVec 16) (e : Entry) (entries : List Entry) :
    permsOf tag (e :: entries) =
      if e.tag = tag then e.perm :: permsOf tag entries else permsOf tag entries := by
  unfold permsOf
  by_cases same : e.tag = tag <;> simp [same]

theorem Canonical.isPerm {entries : List Entry} (canonical : Canonical entries) {tag : BitVec 16}
    {p : Mode} (single : permsOf tag entries = [p]) : IsPerm p := by
  have member : p ∈ permsOf tag entries := by rw [single]; exact mem_singleton_self _
  obtain ⟨e, found, rfl⟩ := mem_map.mp member
  exact canonical.perms e (mem_of_mem_filter found)

variable {n nents : Nat} {s s' : Seen} {e : Entry}

/-- What a turn asks of the entry and of what was seen, and what it leaves. -/
theorem validateEntry_eq_some :
    validateEntry nents n s e = some s' ↔ IsPerm e.perm ∧
      (e.tag = userObj ∧ s.userObj = false ∧ n = 0 ∧ s' = { s with userObj := true } ∨
        e.tag = user ∧ s.userObj = true ∧ s.groupObj = false ∧ e.id ≠ undefinedId ∧
          (s.namedUid = true → s.lastUid < e.id) ∧
          s' = { s with lastUid := e.id, namedUid := true } ∨
        e.tag = groupObj ∧ s.userObj = true ∧ s.groupObj = false ∧ s' = { s with groupObj := true } ∨
        e.tag = group ∧ s.groupObj = true ∧ s.mask = false ∧ e.id ≠ undefinedId ∧
          (s.namedGid = true → s.lastGid < e.id) ∧
          s' = { s with lastGid := e.id, namedGid := true } ∨
        e.tag = mask ∧ s.mask = false ∧ s.groupObj = true ∧ s' = { s with mask := true } ∨
        e.tag = other ∧ s.other = false ∧ s.groupObj = true ∧ n = nents - 1 ∧
          s' = { s with other := true }) := by
  by_cases small : IsPerm e.perm
  · rw [validateEntry, if_neg (show ¬ e.perm &&& ~~~7 ≠ 0 from not_not.mpr small)]
    simp only [small]
    by_cases known : e.tag ∈ [userObj, user, groupObj, group, mask, other]
    · simp only [mem_cons, not_mem_nil, or_false] at known
      rcases known with h | h | h | h | h | h
      all_goals
        simp [h, userObj, user, groupObj, group, mask, other]
        try grind
    · simp only [mem_cons, not_or] at known
      simp [known]
  · rw [validateEntry, if_pos (show e.perm &&& ~~~7 ≠ 0 from small)]
    simp [small]

theorem validateEntry_counts (passed : validateEntry nents n s e = some s') :
    IsPerm e.perm ∧
      s'.userObj.toNat = s.userObj.toNat + (if e.tag = userObj then 1 else 0) ∧
      s'.groupObj.toNat = s.groupObj.toNat + (if e.tag = groupObj then 1 else 0) ∧
      s'.mask.toNat = s.mask.toNat + (if e.tag = mask then 1 else 0) ∧
      s'.other.toNat = s.other.toNat + (if e.tag = other then 1 else 0) ∧
      (s'.namedUid || s'.namedGid) =
        (s.namedUid || s.namedGid || (e.tag = user || e.tag = group)) := by
  obtain ⟨small, turn⟩ := validateEntry_eq_some.mp passed
  refine ⟨small, ?_⟩
  rcases turn with ⟨tag, seen, -, rfl⟩ | ⟨tag, -, -, -, -, rfl⟩ | ⟨tag, -, seen, rfl⟩ |
    ⟨tag, -, -, -, -, rfl⟩ | ⟨tag, seen, -, rfl⟩ | ⟨tag, seen, -, -, rfl⟩
  all_goals simp_all [user, group, userObj, groupObj, mask, other]

theorem validateFrom_counts {entries : List Entry}
    (passed : validateFrom nents n s entries = some s') :
    (∀ e ∈ entries, IsPerm e.perm) ∧
      s'.userObj.toNat = s.userObj.toNat + (permsOf userObj entries).length ∧
      s'.groupObj.toNat = s.groupObj.toNat + (permsOf groupObj entries).length ∧
      s'.mask.toNat = s.mask.toNat + (permsOf mask entries).length ∧
      s'.other.toNat = s.other.toNat + (permsOf other entries).length ∧
      (s'.namedUid || s'.namedGid) =
        (s.namedUid || s.namedGid || entries.any fun e => e.tag = user || e.tag = group) := by
  induction entries generalizing n s with
  | nil =>
    cases passed
    simp [permsOf]
  | cons e entries ih =>
    obtain ⟨s₁, first, passed⟩ := Option.bind_eq_some_iff.mp passed
    obtain ⟨small, owner, group, mask, other, named⟩ := validateEntry_counts first
    obtain ⟨perms, owners, groups, masks, others, later⟩ := ih passed
    have length : ∀ tag, (permsOf tag (e :: entries)).length =
        (if e.tag = tag then 1 else 0) + (permsOf tag entries).length := by
      intro tag
      rw [permsOf_cons]
      split <;> simp [Nat.add_comm]
    refine ⟨forall_mem_cons.mpr ⟨small, perms⟩, ?_, ?_, ?_, ?_, ?_⟩
    rotate_right
    · rw [later, named, any_cons, Bool.or_assoc]
    all_goals
      rw [length]
      omega

/-- What `acl_validate` asks around the loop. -/
theorem aclValidate_eq_none {v : Value} : aclValidate v = none ↔
    (v.size ≠ 0 ∧ v.size % entrySize = 0) ∧
      (3 ≤ v.size / entrySize ∧ v.size / entrySize ≤ maxEntries) ∧
      ∃ s, validateFrom (v.size / entrySize) 0 {} v.entries = some s ∧ s.userObj = true ∧
        s.groupObj = true ∧ s.other = true ∧ ((s.namedUid || s.namedGid) = true → s.mask = true) := by
  simp only [aclValidate]
  cases validateFrom (v.size / entrySize) 0 {} v.entries <;> grind

theorem canonical_of_aclValidate {v : Value} (valid : aclValidate v = none) :
    Canonical v.entries := by
  obtain ⟨-, -, s, passed, seenOwner, seenGroup, seenOther, -⟩ := aclValidate_eq_none.mp valid
  obtain ⟨perms, owner, group, mask, other, -⟩ := validateFrom_counts passed
  have most := Bool.toNat_le s.mask
  simp only [seenOwner, seenGroup, seenOther, Bool.toNat_false,
    Nat.zero_add] at owner group mask other
  exact ⟨owner.symm, group.symm, by omega, other.symm, perms⟩

/-! ## Lists and modes that agree -/

/-- The loop keeps what it saw last. -/
theorem foldl_see (c : Classes) (entries : List Entry) :
    let seen := entries.foldl Classes.see c
    seen.owner = (permsOf userObj entries).getLast?.getD c.owner ∧
      seen.group = (permsOf groupObj entries).getLast?.getD c.group ∧
      seen.mask = (permsOf mask entries).getLast?.getD c.mask ∧
      seen.other = (permsOf other entries).getLast?.getD c.other ∧
      seen.haveMask = (c.haveMask || !(permsOf mask entries).isEmpty) := by
  induction entries generalizing c with
  | nil => simp [permsOf]
  | cons e entries ih =>
    have next := ih (c.see e)
    simp only [foldl_cons, permsOf_cons]
    simp only [Classes.see] at next ⊢
    -- the entry is the last of its tag unless one follows
    split at next
    · simp_all [userObj, groupObj, mask, other, List.getLast?_cons]
    split at next
    · simp_all [groupObj, mask, other, List.getLast?_cons]
    split at next
    · simp_all [mask, other, List.getLast?_cons]
    · split at next
      · simp_all [List.getLast?_cons]
      · simp_all

/-- With one entry of each class, the projection is what the loop collects. -/
theorem projects_classes {entries : List Entry} (canonical : Canonical entries) (m : Mode) :
    let c := classes entries
    Projects ((m &&& ~~~rwxAll) ||| classBits c.owner (if c.haveMask then c.mask else c.group) c.other)
      entries := by
  obtain ⟨owner, group, mask, other, haveMask⟩ := foldl_see {} entries
  obtain ⟨o, g, p, owners, groups, others⟩ := canonical.singles
  simp only [owners, groups, others, List.getLast?_singleton, Option.getD_some] at owner group other
  -- the mask shows if there is one, and the owning group otherwise
  rcases canonical.mask_cases with masks | ⟨q, masks⟩
  · simp only [masks, isEmpty_nil, Bool.not_true, Bool.or_false] at haveMask
    have shows := classes_classBits (m := m) (canonical.isPerm owners) (canonical.isPerm groups)
      (canonical.isPerm others)
    simp only [classes, owner, group, other, haveMask, Bool.false_eq_true, if_false]
    exact ⟨by rw [owners, shows.1], .inr ⟨masks, by rw [groups, shows.2.1]⟩, by rw [others, shows.2.2]⟩
  · simp only [masks, List.getLast?_singleton, Option.getD_some, isEmpty_cons, Bool.not_false,
      Bool.or_true] at mask haveMask
    have shows := classes_classBits (m := m) (canonical.isPerm owners) (canonical.isPerm masks)
      (canonical.isPerm others)
    simp only [classes, owner, mask, other, haveMask, if_true]
    exact ⟨by rw [owners, shows.1], .inl (by rw [masks, shows.2.1]), by rw [others, shows.2.2]⟩

theorem aclSyncMode_projects {v : Value} (valid : aclValidate v = none) (m : Mode) :
    Projects (aclSyncMode m v) v.entries := by
  have whole : ¬ (v.size = 0 ∨ v.size % entrySize ≠ 0) := by
    intro bad
    simp [aclValidate, bad] at valid
  rw [aclSyncMode, if_neg whole]
  exact projects_classes (canonical_of_aclValidate valid) m

/-- What is left of a mode when the type is kept. -/
theorem classes_chmod (m mode : Mode) :
    let mode' := (m &&& typeMask) ||| (mode &&& ~~~typeMask)
    ownerBits mode' = ownerBits mode ∧ groupBits mode' = groupBits mode ∧
      otherBits mode' = otherBits mode := by
  apply classes_congr
  intro i lt
  interval_cases i <;> simp [typeMask]

/-- The entries of one tag change together. -/
theorem permsOf_map (f : Entry → Entry) (tags : ∀ e, (f e).tag = e.tag) (tag : BitVec 16)
    {g : Mode → Mode} (perms : ∀ e, e.tag = tag → (f e).perm = g e.perm) (entries : List Entry) :
    permsOf tag (entries.map f) = (permsOf tag entries).map g := by
  induction entries with
  | nil => rfl
  | cons e entries ih =>
    rw [map_cons, permsOf_cons, permsOf_cons, tags, ih]
    split
    · rename_i same
      rw [map_cons, perms e same]
    · rfl

theorem chmodEntry_tag (haveMask : Bool) (mode : Mode) (e : Entry) :
    (chmodEntry haveMask mode e).tag = e.tag := by
  unfold chmodEntry
  repeat' split
  all_goals rfl

theorem chmod_projects {entries : List Entry} (canonical : Canonical entries) (m mode : Mode) :
    Projects ((m &&& typeMask) ||| (mode &&& ~~~typeMask))
      (entries.map (chmodEntry (entries.any fun e => e.tag = mask) mode)) := by
  obtain ⟨ownerShows, groupShows, otherShows⟩ := classes_chmod m mode
  obtain ⟨o, g, p, owners, groups, others⟩ := canonical.singles
  -- the entries of a tag that all get the same permissions
  have become : ∀ {haveMask tag perm}, (∀ e, e.tag = tag → (chmodEntry haveMask mode e).perm = perm) →
      ∀ {q}, permsOf tag entries = [q] →
        permsOf tag (entries.map (chmodEntry haveMask mode)) = [perm] := by
    intro haveMask tag perm perms q single
    rw [permsOf_map _ (chmodEntry_tag haveMask mode) tag (g := fun _ => perm) perms, single]
    rfl
  constructor
  · rw [ownerShows]
    exact become (by simp +contextual [chmodEntry, ownerBits]) owners
  · rw [groupShows]
    rcases canonical.mask_cases with masks | ⟨q, masks⟩
    · have none : (entries.any fun e => e.tag = mask) = false := by simpa [permsOf] using masks
      rw [none]
      refine .inr ⟨?_, ?_⟩
      · rw [permsOf_map _ (chmodEntry_tag _ mode) mask (g := fun _ => groupBits mode), masks]
        · rfl
        · simp +contextual [chmodEntry, groupBits, userObj, groupObj, mask]
      · exact become (by simp +contextual [chmodEntry, groupBits, userObj, groupObj]) groups
    · exact .inl (become (by simp +contextual [chmodEntry, groupBits, userObj, groupObj, mask]) masks)
  · rw [otherShows]
    exact become (by simp +contextual [chmodEntry, otherBits, userObj, groupObj, mask, other]) others

/-! ### Inheritance -/

section Masq

variable {rwx : Mode} {entries : List Entry} {tag : BitVec 16} {q : Mode}

theorem permsOf_masqLoop (noOwner : tag ≠ userObj) (noOther : tag ≠ other) :
    permsOf tag (masqLoop rwx entries).2 = permsOf tag entries := by
  induction entries generalizing rwx with
  | nil => rfl
  | cons e entries ih =>
    unfold masqLoop
    split
    · rename_i own
      simp only [permsOf_cons, ih, own, noOwner.symm, if_false]
    · split
      · rename_i oth
        simp only [permsOf_cons, ih, oth, noOther.symm, if_false]
      · simp only [permsOf_cons, ih]

/-- The entry with a tag and one class of the mode have been narrowed together. -/
def Narrows (tag : BitVec 16) (bits : Mode → Mode) (rwx : Mode) (entries : List Entry)
    (done : Mode × List Entry) : Prop :=
  (permsOf tag entries = [] → bits done.1 = bits rwx ∧ permsOf tag done.2 = []) ∧
    ((permsOf tag entries).length = 1 → permsOf tag done.2 = [bits done.1])

theorem Narrows.cons {bits : Mode → Mode} {e e' : Entry} {rwx' : Mode} {done : Mode × List Entry}
    (same : e'.tag = e.tag) (set : bits rwx' = if e.tag = tag then e'.perm else bits rwx)
    (rest : Narrows tag bits rwx' entries done) :
    Narrows tag bits rwx (e :: entries) (done.1, e' :: done.2) := by
  simp only [Narrows, permsOf_cons, same]
  split at set
  · rename_i here
    simp only [here, if_true]
    refine ⟨fun absent => (cons_ne_nil _ _ absent).elim, fun one => ?_⟩
    obtain ⟨kept, none⟩ := rest.1 (by simpa using one)
    rw [none, kept, set]
  · rename_i there
    simp only [there, if_false]
    exact ⟨fun absent => (rest.1 absent).imp_left (·.trans set), rest.2⟩

theorem masqLoop_narrows {bits : Mode → Mode} (covered : tag = userObj ∨ tag = other)
    (setOwner : ∀ {m p : Mode}, IsPerm p →
      bits ((m &&& ~~~rwxUser) ||| (p <<< 6)) = if userObj = tag then p else bits m)
    (setOther : ∀ {m p : Mode}, IsPerm p →
      bits ((m &&& ~~~rwxOther) ||| p) = if other = tag then p else bits m)
    (rwx : Mode) (perms : ∀ e ∈ entries, IsPerm e.perm) :
    Narrows tag bits rwx entries (masqLoop rwx entries) := by
  induction entries generalizing rwx with
  | nil => exact ⟨fun _ => ⟨rfl, rfl⟩, fun one => absurd one Nat.zero_ne_one⟩
  | cons e entries ih =>
    obtain ⟨small, perms⟩ := forall_mem_cons.mp perms
    unfold masqLoop
    split
    · rename_i own
      exact (ih _ perms).cons rfl (own ▸ setOwner (small.and _))
    · split
      · rename_i oth
        exact (ih _ perms).cons rfl (oth ▸ setOther (small.and _))
      · refine (ih rwx perms).cons rfl (if_neg ?_).symm
        rcases covered with rfl | rfl <;> assumption

theorem permsOf_setLast {tag' : BitVec 16} (apart : tag' ≠ tag) (perm : Mode) :
    permsOf tag' (setLast tag perm entries) = permsOf tag' entries := by
  induction entries with
  | nil => rfl
  | cons e entries ih =>
    unfold setLast
    split
    · rw [permsOf_cons, permsOf_cons, ih]
    · split
      · rename_i same
        simp only [permsOf_cons, same, apart.symm, if_false]
      · rfl

theorem permsOf_setLast_self {perm : Mode} (single : permsOf tag entries = [q]) :
    permsOf tag (setLast tag perm entries) = [perm] := by
  induction entries with
  | nil => cases single
  | cons e entries ih =>
    rw [permsOf_cons] at single
    unfold setLast
    split
    · rename_i later
      have more : permsOf tag entries ≠ [] := by simpa [permsOf] using later
      split at single
      · exact absurd (List.cons.inj single).2 more
      · rename_i another
        rw [permsOf_cons, if_neg another, ih single]
    · rename_i last
      have none : permsOf tag entries = [] := by simpa [permsOf] using last
      split
      · rename_i same
        rw [permsOf_cons, if_pos same, none]
      · rename_i another
        rw [if_neg another, none] at single
        cases single

/-- The group class is narrowed through the mask or the owning group. -/
theorem narrow_projects (single : permsOf tag entries = [q])
    (small : IsPerm q) (noOwner : userObj ≠ tag) (noOther : other ≠ tag)
    (owners : permsOf userObj entries = [ownerBits rwx])
    (others : permsOf other entries = [otherBits rwx]) :
    let done := narrow tag q rwx entries
    permsOf userObj done.2 = [ownerBits done.1] ∧ permsOf other done.2 = [otherBits done.1] ∧
      permsOf tag done.2 = [groupBits done.1] := by
  have set := classes_setGroup (m := rwx) (small.and ((rwx >>> 3) &&& 7))
  simp only [narrow]
  rw [set.1, set.2.1, set.2.2, permsOf_setLast noOwner, permsOf_setLast noOther,
    permsOf_setLast_self single]
  exact ⟨owners, others, rfl⟩

end Masq

/-- A mode that is put together from the bits above and the narrowed ones. -/
theorem classes_folded (m mode rwx : Mode) :
    let mode' := (m &&& ~~~rwxAll) ||| (((mode &&& ~~~rwxAll) ||| rwx) &&& rwxAll)
    ownerBits mode' = ownerBits rwx ∧ groupBits mode' = groupBits rwx ∧
      otherBits mode' = otherBits rwx := by
  apply classes_congr
  intro i lt
  interval_cases i <;> simp [rwxAll, rwxUser, rwxGroup, rwxOther]

theorem aclDefaultMasq_projects {dfl : Value} (valid : aclValidate dfl = none) (m mode : Mode) :
    let masqued := aclDefaultMasq dfl mode
    Projects ((m &&& ~~~rwxAll) ||| (masqued.mode &&& rwxAll)) masqued.entries := by
  have canonical := canonical_of_aclValidate valid
  have fits : ¬ (dfl.size < 3 * entrySize ∨ dfl.size % entrySize ≠ 0 ∨ xattrSize < dfl.size) := by
    simp only [aclValidate] at valid
    split at valid
    · cases valid
    split at valid
    · cases valid
    · simp only [xattrSize, entrySize] at *
      omega
  simp only [aclDefaultMasq, if_neg fits]
  generalize start : mode &&& rwxAll = rwx
  -- the loop, for the owner and the others
  have owners := (masqLoop_narrows (.inl rfl) (fun small => (classes_setOwner small).1)
    (fun small => (classes_setOther small).1) rwx canonical.perms).2 canonical.owner
  have others := (masqLoop_narrows (.inr rfl) (fun small => (classes_setOwner small).2.2)
    (fun small => (classes_setOther small).2.2) rwx canonical.perms).2 canonical.other
  have masks : permsOf mask (masqLoop rwx dfl.entries).2 = permsOf mask dfl.entries :=
    permsOf_masqLoop (by decide) (by decide)
  have groups : permsOf groupObj (masqLoop rwx dfl.entries).2 = permsOf groupObj dfl.entries :=
    permsOf_masqLoop (by decide) (by decide)
  obtain ⟨g, owning⟩ := length_eq_one_iff.mp canonical.group
  rw [masks, groups]
  -- the code behind it, for the group class
  rcases canonical.mask_cases with found | ⟨q, found⟩
  · rw [found, owning]
    rw [owning] at groups
    obtain ⟨own, oth, grp⟩ := narrow_projects groups (canonical.isPerm owning) (by decide)
      (by decide) owners others
    have shows := classes_folded m mode (narrow groupObj g (masqLoop rwx dfl.entries).1
      (masqLoop rwx dfl.entries).2).1
    simp only [List.getLast?_nil, List.getLast?_singleton]
    refine ⟨by rw [shows.1, own], .inr ⟨?_, by rw [shows.2.1, grp]⟩, by rw [shows.2.2, oth]⟩
    rw [narrow, permsOf_setLast (by decide), masks, found]
  · rw [found]
    rw [found] at masks
    obtain ⟨own, oth, grp⟩ := narrow_projects masks (canonical.isPerm found) (by decide)
      (by decide) owners others
    have shows := classes_folded m mode (narrow mask q (masqLoop rwx dfl.entries).1
      (masqLoop rwx dfl.entries).2).1
    simp only [List.getLast?_singleton]
    exact ⟨by rw [shows.1, own], .inl (by rw [shows.2.1, grp]), by rw [shows.2.2, oth]⟩

/-! ## Calls -/

/-- The mode shows the access ACL, and what could be inherited has passed. -/
structure Good (i : Inode) : Prop where
  access : ∀ v, i.access = some v → Projects i.mode v.entries
  default : ∀ v, i.default = some v → aclValidate v = none

section Calls

variable {i i' : Inode} {stored' : Option Value} {v : Value} {flags : BitVec 32} {fails : Bool}
  {stored : Option Value} {name : AclName}

theorem setxattr_ok (done : setxattr stored v flags fails = .ok stored') : stored' = some v := by
  unfold setxattr at done
  iterate 3
    split at done
    · cases done
  cases done
  rfl

theorem removexattr_ok (done : removexattr stored fails = .ok stored') : stored' = none := by
  unfold removexattr at done
  split at done
  · cases done
  split at done
  · cases done
  · cases done
    rfl

theorem removexattr_enodata
    (absent : removexattr stored fails = .error .enodata) : stored = none := by
  unfold removexattr at absent
  split at absent
  · rfl
  · split at absent <;> cases absent

/-- A result of a store under a change of the inode. -/
theorem map_ok {α β : Type} {r : Except Errno α} {f : α → β} {b : β} (done : r.map f = .ok b) :
    ∃ a, r = .ok a ∧ f a = b := by
  cases r with
  | error e => cases done
  | ok a => exact ⟨a, rfl, Except.ok.inj done⟩

theorem setTrivial_good (good : Good i) {amode : Mode}
    (done : setTrivial i amode flags fails = .ok i') : Good i' := by
  unfold setTrivial at done
  split at done
  · cases done
  simp only at done
  split at done
  · rename_i absent
    cases done
    refine ⟨fun v stored => ?_, good.default⟩
    rw [removexattr_enodata absent] at stored
    cases stored
  · cases done
  rename_i removed
  cases done
  refine ⟨fun v stored => ?_, good.default⟩
  rw [removexattr_ok removed] at stored
  cases stored

theorem doSetxattr_good (good : Good i)
    (done : doSetxattr i name v flags fails = .ok i') : Good i' := by
  unfold doSetxattr at done
  iterate 2
    split at done
    · cases done
  split at done
  · cases done
  rename_i valid
  cases name with
  | access =>
    simp only at done
    split at done
    · exact setTrivial_good good done
    obtain ⟨stored', set, rfl⟩ := map_ok done
    refine ⟨fun w stored => ?_, good.default⟩
    rw [setxattr_ok set, Option.some.injEq] at stored
    subst stored
    exact aclSyncMode_projects valid i.mode
  | default =>
    obtain ⟨stored', set, rfl⟩ := map_ok done
    refine ⟨good.access, fun w stored => ?_⟩
    rw [setxattr_ok set, Option.some.injEq] at stored
    exact stored ▸ valid

theorem doRemovexattr_good (good : Good i)
    (done : doRemovexattr i name fails = .ok i') : Good i' := by
  unfold doRemovexattr at done
  split at done
  · cases done
  cases name with
  | access =>
    obtain ⟨stored', removed, rfl⟩ := map_ok done
    refine ⟨fun w stored => ?_, good.default⟩
    rw [removexattr_ok removed] at stored
    cases stored
  | default =>
    obtain ⟨stored', removed, rfl⟩ := map_ok done
    refine ⟨good.access, fun w stored => ?_⟩
    rw [removexattr_ok removed] at stored
    cases stored

theorem sysChmod_good (good : Good i) {mode : Mode} (done : sysChmod i mode fails = .ok i') :
    Good i' := by
  obtain ⟨stored', chmod, rfl⟩ := map_ok done
  refine ⟨fun w stored => ?_, good.default⟩
  simp only at stored
  unfold aclChmod at chmod
  cases got : getxattr i.access xattrSize with
  | error e =>
    -- with no stored list there is nothing to edit; any other error ends the call
    have absent : stored' = none := by
      unfold getxattr at got
      split at got
      · rename_i absent
        cases got
        rw [absent] at chmod
        exact (Except.ok.inj chmod).symm
      · rename_i there
        split at got
        · cases got
          rw [there] at chmod
          simp [getxattr, *] at chmod
        · cases got
    rw [absent] at stored
    cases stored
  | ok v =>
    rw [got] at chmod
    simp only at chmod
    iterate 3
      split at chmod
      · cases chmod
    rename_i valid
    rw [setxattr_ok chmod, Option.some.injEq] at stored
    subst stored
    exact chmod_projects (canonical_of_aclValidate (not_not.mp valid)) i.mode mode

theorem getxattr_ok {size : Nat} (got : getxattr stored size = .ok v) : stored = some v := by
  unfold getxattr at got
  split at got
  · cases got
  split at got
  · cases got
  · cases got
    rfl

/-- A stored value, or the old one if it could not be stored. -/
theorem setxattr_getD {w : Value}
    (found : ((setxattr stored v flags fails).toOption).getD stored = some w) :
    w = v ∨ stored = some w := by
  cases set : setxattr stored v flags fails with
  | error e =>
    rw [set] at found
    exact .inr found
  | ok stored' =>
    rw [set, setxattr_ok set] at found
    exact .inl (Option.some.inj found).symm

/-- A new inode, which has no ACL yet. -/
theorem aclInheritDefault_good {dir : Inode} (good : Good dir) (fresh : i.access = none)
    (fresh' : i.default = none) (mode : Mode) (newDir failAccess failDefault : Bool) :
    Good (aclInheritDefault dir i mode newDir failAccess failDefault) := by
  have bare : Good i := ⟨by simp [fresh], by simp [fresh']⟩
  unfold aclInheritDefault
  split
  · exact bare
  rename_i dfl got
  have valid := good.default dfl (getxattr_ok got)
  split
  · exact bare
  constructor
  · intro w stored
    simp only at stored ⊢
    split at stored
    · rcases setxattr_getD stored with rfl | old
      · exact aclDefaultMasq_projects valid i.mode mode
      · rw [fresh] at old
        cases old
    · rw [fresh] at stored
      cases stored
  · intro w stored
    simp only at stored
    split at stored
    · rcases setxattr_getD stored with rfl | old
      · exact valid
      · rw [fresh'] at old
        cases old
    · rw [fresh'] at stored
      cases stored

end Calls

/-! ## Runs -/

def AllGood (s : State) : Prop := ∀ ino i, s ino = some i → Good i

theorem AllGood.set {s : State} (good : AllGood s) (ino : Nat) {i : Inode} (new : Good i) :
    AllGood (Function.update s ino (some i)) := by
  intro x j found
  by_cases same : x = ino
  · subst same
    rw [Function.update_self] at found
    exact Option.some.inj found ▸ new
  · rw [Function.update_of_ne same] at found
    exact good x j found

theorem update_good {s s' : State} (good : AllGood s) {ino : Nat} {f : Inode → Except Errno Inode}
    (keeps : ∀ i i', Good i → f i = .ok i' → Good i') (taken : update s ino f = some s') :
    AllGood s' := by
  obtain ⟨i, here, result⟩ := Option.bind_eq_some_iff.mp taken
  obtain ⟨j, done, rfl⟩ := Option.map_eq_some_iff.mp result
  cases returned : f i with
  | error e =>
    rw [returned] at done
    cases done
  | ok i' =>
    rw [returned] at done
    cases done
    exact good.set ino (keeps i _ (good ino i here) returned)

theorem step_good {s s' : State} {l : Label} (good : AllGood s) (taken : step s l = some s') :
    AllGood s' := by
  cases l with
  | setxattr ino name v flags fails =>
    exact update_good good (fun _ _ good done => doSetxattr_good good done) taken
  | removexattr ino name fails =>
    exact update_good good (fun _ _ good done => doRemovexattr_good good done) taken
  | chmod ino mode fails =>
    exact update_good good (fun _ _ good done => sysChmod_good good done) taken
  | create dir ino newDir mode umask failAccess failDefault =>
    simp only [step] at taken
    split at taken
    · rename_i d found free
      cases taken
      exact good.set ino (aclInheritDefault_good (good dir d found) rfl rfl _ _ _ _)
    · cases taken

/-- **ACL and mode agree**: from inodes without ACLs, whatever is set, removed, changed or inherited,
the mode of an inode shows its access ACL. -/
theorem mode_projects_acl {s₀ s : State} {ls : List Label}
    (fresh : ∀ ino i, s₀ ino = some i → i.access = none ∧ i.default = none)
    (ran : run step s₀ ls = some s) {ino : Nat} {i : Inode} {acl : Value} (here : s ino = some i)
    (stored : i.access = some acl) : Projects i.mode acl.entries := by
  have start : AllGood s₀ := by
    intro x j found
    obtain ⟨noAccess, noDefault⟩ := fresh x j found
    exact ⟨by simp [noAccess], by simp [noDefault]⟩
  have good := run_keeps (fun _ _ _ good taken => step_good good taken) start ran
  exact (good ino i here).access acl stored

/-! ## Poles -/

/-- A list with a named user and a mask. -/
def sharedAcl : Value :=
  ⟨[⟨userObj, 7, undefinedId⟩, ⟨user, 6, 1000⟩, ⟨groupObj, 5, undefinedId⟩, ⟨mask, 6, undefinedId⟩,
    ⟨other, 1, undefinedId⟩], 0⟩

/-- A directory gets a default and an access ACL, has its mode changed, and hands the default down
to a directory and from there to a file. -/
def handedDown : List Label :=
  [.setxattr 1 .default sharedAcl 0 false, .setxattr 1 .access sharedAcl xattrCreate false,
    .chmod 1 0o750 false, .create 1 2 true 0o755 0o022 false false,
    .create 2 3 false 0o640 0o022 false false]

def oneDirectory : State := fun ino => if ino = 1 then some ⟨typeDir ||| 0o755, none, none⟩ else none

/-- The file's list and mode are those of the default ACL within what its creator asked for. -/
theorem mode_projects_acl_handedDown :
    ∃ s i acl, run step oneDirectory handedDown = some s ∧ s 3 = some i ∧ i.mode = 0o100640 ∧
      i.access = some acl ∧ Projects i.mode acl.entries := by
  have ends : (run step oneDirectory handedDown).any (fun s =>
      (s 3).any fun i => i.mode == 0o100640 && i.access.isSome) = true := by decide +kernel
  have fresh : ∀ ino i, oneDirectory ino = some i → i.access = none ∧ i.default = none := by
    intro ino i found
    simp only [oneDirectory, when_eq_some] at found
    obtain ⟨-, rfl⟩ := found
    exact ⟨rfl, rfl⟩
  simp only [Option.any_eq_true, Bool.and_eq_true, beq_iff_eq, Option.isSome_iff_exists] at ends
  obtain ⟨s, ran, i, here, mode, acl, stored⟩ := ends
  exact ⟨s, i, acl, ran, here, mode, stored, mode_projects_acl fresh ran here stored⟩

end Argentum.Kernel.Acl
