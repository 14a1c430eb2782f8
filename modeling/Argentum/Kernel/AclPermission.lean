/-
# Kernel.AclPermission — who may do what

`acl_check_entries` looks for the entry that decides: the owner's, then that of a named user, then
the entries of the caller's groups together, then that of the others; a mask narrows the middle
two. An inode without a stored list is checked against the three entries that its mode stands for.

`equivalent_list_transparent` says that a list that `do_setxattr` compresses into the mode decides
as the mode does. `chmod_bounds_callers`: after a `chmod` of an inode with a stored list the mask
has the group bits, and whoever is not the owner and not of the others passes through it.
-/
import Argentum.Kernel.Acl

namespace Argentum.Kernel.Acl

open List

/-! ## The check -/

/-- `current`: its ids, and its supplementary groups, which `-1` ends. -/
structure Caller where
  /-- `PF_USEREAL`. -/
  useReal : Bool
  uid : BitVec 32
  fsuid : BitVec 32
  gid : BitVec 32
  fsgid : BitVec 32
  groups : List (BitVec 32)

/-- `i_uid` and `i_gid`. -/
structure Owner where
  uid : BitVec 32
  gid : BitVec 32

def Caller.callerUid (c : Caller) : BitVec 32 := if c.useReal then c.uid else c.fsuid

/-- `acl_caller_gid`. -/
def Caller.callerGid (c : Caller) : BitVec 32 := if c.useReal then c.gid else c.fsgid

/-- `acl_in_groups`. -/
def Caller.inGroups (c : Caller) (gid : BitVec 32) : Bool :=
  c.callerGid = gid || (c.groups.takeWhile (· ≠ -1)).contains gid

section Check

variable (entries : List Entry) (o : Owner) (c : Caller)

/-- An entry for one of the caller's groups. -/
def inClass (e : Entry) : Bool :=
  e.tag = groupObj && c.inGroups o.gid || e.tag = group && c.inGroups e.id

/-- The loop over the groups: whether one matched, and what the matching ones permit. -/
def groupLoop (seen : Bool × Mode) : Bool × Mode :=
  entries.foldl (fun seen e => if inClass o c e then (true, seen.2 ||| e.perm) else seen) seen

def deciding : Option Mode :=
  let mperm := (permsOf mask entries).head?.getD 7
  if o.uid = c.callerUid then (permsOf userObj entries).head?
  else match entries.find? fun e => e.tag = user && e.id = c.callerUid with
    | some e => some (mperm &&& e.perm)
    | none =>
      let (matched, gperms) := groupLoop entries o c (false, 0)
      if matched then some (mperm &&& gperms) else (permsOf other entries).head?

variable (mode : Mode) (request : BitVec 32)

/-- `(perm & mask) == mask`. -/
def grants (perm : Mode) : Bool := perm.setWidth 32 &&& request = request

/-- `acl_check_entries`. -/
def aclCheckEntries : Option Errno :=
  if (deciding entries o c).any (grants request) then none else some .eacces

/-- The list that a mode stands for. -/
def trivialEntries : List Entry :=
  [⟨userObj, (mode >>> 6) &&& 7, undefinedId⟩, ⟨groupObj, (mode >>> 3) &&& 7, undefinedId⟩,
    ⟨other, mode &&& 7, undefinedId⟩]

/-- `acl_trivial_permission`. -/
def aclTrivialPermission : Option Errno :=
  aclCheckEntries (trivialEntries mode) o c request

/-- `acl_permission`. -/
def aclPermission (i : Inode) (request : BitVec 32) : Option Errno :=
  match getxattr i.access xattrSize with
  | .error .enodata => aclTrivialPermission o c i.mode request
  | .error e => some e
  | .ok v =>
    if v.size = 0 ∨ v.size % entrySize ≠ 0 then some .eio
    else match aclValidate v with
      | some _ => some .eio
      | none => aclCheckEntries v.entries o c request

end Check

/-! ## Which entry decides -/

theorem IsPerm.seven_and {p : Mode} (small : IsPerm p) : 7 &&& p = p := by
  apply BitVec.eq_of_getElem_eq
  intro i lt
  interval_cases i <;> simp [small.bit]

theorem isPerm_and_seven (m : Mode) : IsPerm (m &&& 7) := by
  unfold IsPerm
  rw [BitVec.and_assoc]
  simp

section Deciding

variable {entries : List Entry} {o : Owner} {c : Caller} {p : Mode} {q : Mode}

/-- The permissions of the entries for the caller's groups. -/
def groupPerms (entries : List Entry) (o : Owner) (c : Caller) : List Mode :=
  (entries.filter (inClass o c)).map Entry.perm

theorem groupLoop_eq (seen : Bool × Mode) :
    groupLoop entries o c seen = (seen.1 || !(groupPerms entries o c).isEmpty,
      (groupPerms entries o c).foldl (· ||| ·) seen.2) := by
  induction entries generalizing seen with
  | nil => simp [groupLoop, groupPerms]
  | cons e entries ih =>
    rw [groupLoop, foldl_cons, ← groupLoop, ih]
    by_cases here : inClass o c e = true <;> simp [groupPerms, here]

/-- Without named entries there is one entry for each class. -/
theorem deciding_unnamed {a g : Mode} (unnamed : ∀ e ∈ entries, e.tag ≠ user ∧ e.tag ≠ group)
    (owner : permsOf userObj entries = [a]) (owning : permsOf groupObj entries = [g])
    (others : permsOf other entries = [p])
    (masked : (permsOf mask entries).head?.getD 7 &&& g = g) :
    deciding entries o c =
      some (if o.uid = c.callerUid then a else if c.inGroups o.gid then g else p) := by
  have noUser : (entries.find? fun e => e.tag = user && e.id = c.callerUid) = none := by
    simp only [find?_eq_none, Bool.and_eq_true, decide_eq_true_eq, not_and]
    exact fun e member tag => absurd tag (unnamed e member).1
  have perms : groupPerms entries o c = if c.inGroups o.gid then [g] else [] := by
    have same : ∀ e ∈ entries, inClass o c e = (decide (e.tag = groupObj) && c.inGroups o.gid) := by
      intro e member
      simp [inClass, (unnamed e member).2]
    rw [groupPerms, filter_congr same]
    split
    · simpa [permsOf, *] using owning
    · simp [*]
  rw [deciding, noUser]
  simp only [groupLoop_eq, perms, owner, others]
  split
  · rfl
  split
  · simpa using masked
  · simp

theorem deciding_trivial (mode : Mode) : deciding (trivialEntries mode) o c =
    some (if o.uid = c.callerUid then ownerBits mode
      else if c.inGroups o.gid then groupBits mode else otherBits mode) := by
  refine deciding_unnamed ?_ rfl rfl rfl ?_
  · simp [trivialEntries, userObj, user, groupObj, group, other]
  · exact (isPerm_and_seven (mode >>> 3)).seven_and

/-- A named user, or a group of the caller, has an entry. -/
def Matched (entries : List Entry) (o : Owner) (c : Caller) : Prop :=
  ∃ e ∈ entries, e.tag = user ∧ e.id = c.callerUid ∨ inClass o c e = true

/-- With a mask, whoever is matched passes through it. -/
theorem deciding_masked (masked : permsOf mask entries = [q])
    (notOwner : o.uid ≠ c.callerUid) (matched : Matched entries o c) :
    ∃ p, deciding entries o c = some (q &&& p) := by
  rw [deciding, if_neg notOwner, masked]
  split
  · exact ⟨_, rfl⟩
  · rename_i noUser
    obtain ⟨e, member, ⟨tag, id⟩ | here⟩ := matched
    · simp [find?_eq_none] at noUser
      exact absurd id (noUser e member tag)
    · have some : groupPerms entries o c ≠ [] := by simpa [groupPerms] using ⟨e, member, here⟩
      simp [groupLoop_eq, some]

/-- Whoever is not matched is one of the others. -/
theorem deciding_other (others : permsOf other entries = [p])
    (notOwner : o.uid ≠ c.callerUid) (unmatched : ¬Matched entries o c) :
    deciding entries o c = some p := by
  have noUser : (entries.find? fun e => e.tag = user && e.id = c.callerUid) = none := by
    simp only [find?_eq_none, Bool.and_eq_true, decide_eq_true_eq]
    exact fun e member named => unmatched ⟨e, member, .inl named⟩
  have noGroup : groupPerms entries o c = [] := by
    simp only [groupPerms, map_eq_nil_iff, filter_eq_nil_iff]
    exact fun e member here => unmatched ⟨e, member, .inr here⟩
  simp [deciding, notOwner, noUser, groupLoop_eq, noGroup, others]

theorem grants_of_and {request : BitVec 32}
    (granted : grants request (p &&& q) = true) : grants request p = true := by
  simp only [grants, decide_eq_true_eq, BitVec.setWidth_and] at granted ⊢
  calc p.setWidth 32 &&& request
      = p.setWidth 32 &&& (p.setWidth 32 &&& q.setWidth 32 &&& request) := by rw [granted]
    _ = p.setWidth 32 &&& q.setWidth 32 &&& request := by
      rw [← BitVec.and_assoc, ← BitVec.and_assoc, BitVec.and_self]
    _ = request := granted

theorem aclCheckEntries_eq (decided : deciding entries o c = some p) (request : BitVec 32) :
    aclCheckEntries entries o c request = none ↔ grants request p = true := by
  simp [aclCheckEntries, decided]

end Deciding

/-! ## Lists that the mode replaces -/

/-- **Compression is transparent**: a valid list that is equivalent to a mode decides as an inode
with that mode does, for every owner, caller and request. -/
theorem equivalent_list_transparent {v : Value} {m : Mode} (valid : aclValidate v = none)
    (equiv : aclEquivMode v = some m) (o : Owner) (c : Caller) (k : Mode) (request : BitVec 32) :
    aclCheckEntries v.entries o c request =
      aclTrivialPermission o c ((k &&& ~~~rwxAll) ||| m) request := by
  have canonical := canonical_of_aclValidate valid
  obtain ⟨a, g, p, owners, groups, others⟩ := canonical.singles
  obtain ⟨owner, group, mask, other, haveMask⟩ := foldl_see {} v.entries
  simp only [owners, groups, others, getLast?_singleton, Option.getD_some] at owner group other
  unfold aclEquivMode at equiv
  split at equiv
  · cases equiv
  split at equiv
  · cases equiv
  simp only [classes, Option.ite_none_left_eq_some, Option.some.injEq, owner, group, other] at equiv
  obtain ⟨masked, rfl⟩ := equiv
  obtain ⟨ownerShows, groupShows, otherShows⟩ :=
    classes_classBits (canonical.isPerm owners) (canonical.isPerm groups) (canonical.isPerm others)
  have noNames : ∀ e ∈ v.entries, e.tag ≠ user ∧ e.tag ≠ Acl.group := by
    intro e member
    have plain : e.isNamed = false := by simp_all
    constructor
    all_goals
      intro tag
      simp [Entry.isNamed, tag, userObj, user, groupObj, Acl.group, Acl.mask, Acl.other] at plain
  have through : (permsOf Acl.mask v.entries).head?.getD 7 &&& g = g := by
    rcases canonical.mask_cases with masks | ⟨q, masks⟩
    · simpa [masks] using (canonical.isPerm groups).seven_and
    · simp_all
  rw [aclTrivialPermission, aclCheckEntries, aclCheckEntries, deciding_trivial,
    deciding_unnamed noNames owners groups others through, ownerShows, groupShows, otherShows]

/-- A list of three entries for an inode of mode `0644`. -/
def plainAcl : Value :=
  ⟨[⟨userObj, 6, undefinedId⟩, ⟨groupObj, 4, undefinedId⟩, ⟨other, 4, undefinedId⟩], sharedAcl.rest⟩

theorem equivalent_list_transparent_plainAcl :
    aclCheckEntries plainAcl.entries ⟨0, 0⟩ ⟨false, 5, 5, 5, 5, [0]⟩ 2 =
      aclTrivialPermission ⟨0, 0⟩ ⟨false, 5, 5, 5, 5, [0]⟩ ((typeReg &&& ~~~rwxAll) ||| 0o644) 2 :=
  equivalent_list_transparent (by decide) (by decide) _ _ _ _

/-! ## Lists that `chmod` rewrites -/

section Chmod

variable {nents n : Nat} {s : Seen} {entries : List Entry} {v : Value}

/-- Validation asks for tags, ids and the bits beyond `rwx`. -/
theorem validateFrom_map {f : Entry → Entry} (tags : ∀ e, (f e).tag = e.tag)
    (ids : ∀ e, (f e).id = e.id) (small : ∀ e ∈ entries, IsPerm e.perm ∧ IsPerm (f e).perm) :
    validateFrom nents n s (entries.map f) = validateFrom nents n s entries := by
  induction entries generalizing n s with
  | nil => rfl
  | cons e entries ih =>
    obtain ⟨⟨here, there⟩, small⟩ := forall_mem_cons.mp small
    have turn : validateEntry nents n s (f e) = validateEntry nents n s e := by
      unfold IsPerm at here there
      simp only [validateEntry, tags, ids, here, there]
    simp [map_cons, validateFrom, turn, ih small]

theorem unnamed_of_unmasked (valid : aclValidate v = none)
    (unmasked : permsOf mask v.entries = []) :
    ∀ e ∈ v.entries, e.tag ≠ user ∧ e.tag ≠ group := by
  obtain ⟨-, -, s, passed, -, -, -, needed⟩ := aclValidate_eq_none.mp valid
  obtain ⟨-, -, -, masks, -, named⟩ := validateFrom_counts passed
  have noMask : s.mask = false := by simpa [unmasked] using masks
  simpa [named, noMask] using needed

variable {mode : Mode} {o : Owner} {c : Caller} {i : Inode}

theorem chmodEntry_id (haveMask : Bool) (mode : Mode) (e : Entry) :
    (chmodEntry haveMask mode e).id = e.id := by
  unfold chmodEntry
  repeat' split
  all_goals rfl

/-- The value that `acl_chmod` stores. -/
def chmodValue (v : Value) (mode : Mode) : Value :=
  { v with entries := v.entries.map (chmodEntry (v.entries.any fun e => e.tag = mask) mode) }

theorem aclValidate_chmod (valid : aclValidate v = none) :
    aclValidate (chmodValue v mode) = none := by
  have perms := (canonical_of_aclValidate valid).perms
  have small : ∀ haveMask, ∀ e ∈ v.entries,
      IsPerm e.perm ∧ IsPerm (chmodEntry haveMask mode e).perm := by
    intro haveMask e member
    refine ⟨perms e member, ?_⟩
    unfold chmodEntry
    repeat' split
    all_goals first | exact isPerm_and_seven _ | exact perms e member
  rw [aclValidate_eq_none] at valid ⊢
  simpa only [chmodValue, Value.size, length_map,
    validateFrom_map (chmodEntry_tag _ _) (chmodEntry_id _ _) (small _)] using valid

theorem getxattr_valid (valid : aclValidate v = none) : getxattr (some v) xattrSize = .ok v := by
  obtain ⟨⟨-, whole⟩, ⟨-, few⟩, -⟩ := aclValidate_eq_none.mp valid
  rw [getxattr, if_neg]
  simp only [xattrSize, entrySize, maxEntries] at *
  omega

theorem aclPermission_valid (stored : i.access = some v) (valid : aclValidate v = none)
    (request : BitVec 32) :
    aclPermission o c i request = aclCheckEntries v.entries o c request := by
  obtain ⟨⟨some, whole⟩, -⟩ := aclValidate_eq_none.mp valid
  simp [aclPermission, stored, getxattr_valid valid, some, whole, valid]

theorem aclChmod_valid {fails : Bool} {stored' : Option Value}
    (stored : i.access = some v) (valid : aclValidate v = none)
    (done : aclChmod i mode fails = .ok stored') :
    stored' = some (chmodValue v mode) := by
  obtain ⟨⟨some, whole⟩, ⟨-, few⟩, -⟩ := aclValidate_eq_none.mp valid
  rw [aclChmod, stored, getxattr_valid valid] at done
  simp only [some, whole, few.not_gt, valid, ne_eq, not_true, or_self, if_false] at done
  exact setxattr_ok done

end Chmod

/-- **After a `chmod`** the owner has the owner bits, whoever an entry names or is in a group with
an entry no more than the group bits, and everybody else the other bits. -/
theorem chmod_bounds_callers {i i' : Inode} {v : Value} {mode : Mode} {fails : Bool}
    (stored : i.access = some v) (valid : aclValidate v = none)
    (done : sysChmod i mode fails = .ok i') (o : Owner) (c : Caller) (request : BitVec 32) :
    (o.uid = c.callerUid →
      (aclPermission o c i' request = none ↔ grants request (ownerBits mode) = true)) ∧
    (o.uid ≠ c.callerUid → Matched v.entries o c →
      aclPermission o c i' request = none → grants request (groupBits mode) = true) ∧
    (o.uid ≠ c.callerUid → ¬Matched v.entries o c →
      (aclPermission o c i' request = none ↔ grants request (otherBits mode) = true)) := by
  obtain ⟨stored', chmod, rfl⟩ := map_ok done
  have rewritten := aclChmod_valid stored valid chmod
  have valid' : aclValidate (chmodValue v mode) = none := aclValidate_chmod valid
  obtain ⟨ownerShows, groupShows, otherShows⟩ := classes_chmod i.mode mode
  have projects : Projects _ (chmodValue v mode).entries :=
    chmod_projects (canonical_of_aclValidate valid) i.mode mode
  have same : Matched v.entries o c ↔ Matched (chmodValue v mode).entries o c := by
    simp [Matched, chmodValue, inClass, chmodEntry_tag, chmodEntry_id]
  rw [aclPermission_valid rewritten valid', ← ownerShows, ← groupShows, ← otherShows, same]
  refine ⟨fun isOwner => ?_, fun notOwner matched granted => ?_, fun notOwner unmatched => ?_⟩
  · exact aclCheckEntries_eq (by simp [deciding, isOwner, projects.owner]) request
  · rcases projects.group with masked | ⟨unmasked, owning⟩
    · obtain ⟨p, decided⟩ := deciding_masked masked notOwner matched
      exact grants_of_and ((aclCheckEntries_eq decided request).mp granted)
    -- nobody is named, so it is the owning group
    have unnamed := unnamed_of_unmasked valid' unmasked
    have inside : c.inGroups o.gid = true := by
      obtain ⟨e, member, ⟨tag, -⟩ | here⟩ := matched
      · exact absurd tag (unnamed e member).1
      · simp only [inClass, (unnamed e member).2, decide_false, Bool.false_and, Bool.or_false,
          Bool.and_eq_true] at here
        exact here.2
    have decided := deciding_unnamed (o := o) (c := c) unnamed projects.owner owning
      projects.other (by rw [unmasked]; exact (isPerm_and_seven _).seven_and)
    rw [if_neg notOwner, if_pos inside] at decided
    exact (aclCheckEntries_eq decided request).mp granted
  · exact aclCheckEntries_eq (deciding_other projects.other notOwner unmatched) request

/-- User 1000 has an entry, and may read through the mask that mode `0740` leaves. -/
theorem chmod_bounds_callers_sharedAcl :
    aclPermission ⟨0, 0⟩ ⟨false, 1000, 1000, 100, 100, []⟩
        ⟨0o100740, some (chmodValue sharedAcl 0o740), none⟩ 4 = none ∧
      grants 4 (groupBits 0o740) = true := by
  have granted : aclPermission ⟨0, 0⟩ ⟨false, 1000, 1000, 100, 100, []⟩
      ⟨0o100740, some (chmodValue sharedAcl 0o740), none⟩ 4 = none := by decide
  have done : sysChmod ⟨0o100761, some sharedAcl, none⟩ 0o740 false =
      .ok ⟨0o100740, some (chmodValue sharedAcl 0o740), none⟩ := by decide
  exact ⟨granted, (chmod_bounds_callers rfl (by decide) done ⟨0, 0⟩
    ⟨false, 1000, 1000, 100, 100, []⟩ 4).2.1 (by decide)
    ⟨⟨user, 6, 1000⟩, by decide, .inl ⟨rfl, rfl⟩⟩ granted⟩

end Argentum.Kernel.Acl
