/-
# Mm.ForkIsolation — after a fork neither process sees the other's writes

`fork_isolation`: whatever parent and child do after a fork, what either of them reads at an
address in a private region is the last byte that it wrote there itself, and before that what was
there at the fork. For a page behind a writable private leaf is shown at no other private address
(`Inv.exclusive`): the fork leaves no such leaf writable, and a fault makes one writable only with
a new page.

A read-only private mapping of a file shows the page of the page cache, which a shared mapping of
the same file shows too; `Isolated` leaves out the writes to such pages
(`read_only_mapping_written`).
-/
import Argentum.Mm.ForkPages
import Argentum.Mm.VmaInvariant

namespace Argentum.Mm.ForkIsolation

open Lib Lib.Machine List Function World
open Option (map_eq_some_iff map_eq_none_iff isSome_iff_ne_none map_some isSome_iff_exists
  mem_some_iff mem_def)

/-! ## Regions of a page -/

/-- The region that holds the page `v`. -/
def pageRegion (vs : List Vma) (v : Nat) : Option Vma :=
  (splitAtRegion (v * pageSize) vs).map (·.2.1)

/-- Neither `MAP_SHARED` nor a shared memory segment. -/
def isPrivate (r : Vma) : Bool := r.flags &&& mapShared == 0 && r.sType != .shm

/-- What `do_mmap` and `exec` see to: nothing is mapped on page 0, only anonymous regions are filled
with zeros, and the region at the top is the last one, and anonymous. -/
structure Regions (vs : List Vma) : Prop where
  positive : ∀ r ∈ vs, pageSize ≤ r.start
  zero : ∀ r ∈ vs, r.flags &&& zeroPage ≠ 0 → r.inode = none ∧ r.sType ≠ .shm
  stack : ∀ pre r post, findVmaRegion vs (userStackTop - 1) = some (pre, r, post) →
    post = [] ∧ r.inode = none ∧ isPrivate r = true

section Regions

variable {vs : List Vma} {addr v : Nat} {r : Vma}

theorem pageRegion_mem (found : pageRegion vs v = some r) : r ∈ vs := by
  rw [pageRegion, map_eq_some_iff] at found
  obtain ⟨⟨pre, _, post⟩, split, rfl⟩ := found
  rw [(splitAtRegion_some split).1]
  simp

theorem Regions.find (regions : Regions vs) (addr : Nat) :
    (findVmaRegion vs addr).map (·.2.1) = pageRegion vs (addr / pageSize) := by
  unfold findVmaRegion
  split
  case isFalse => rfl
  case isTrue zero =>
    cases found : pageRegion vs (addr / pageSize) with
    | none => rfl
    | some r =>
      rw [pageRegion, map_eq_some_iff] at found
      obtain ⟨⟨pre, r, post⟩, split, rfl⟩ := found
      obtain ⟨rfl, low, -⟩ := splitAtRegion_some split
      have := regions.positive r (by simp)
      simp only [pageSize] at *
      omega

theorem splitAtRegion_append_some {pre : List Vma} {found : List Vma × Vma × List Vma}
    (here : splitAtRegion addr pre = some found) (post : List Vma) :
    splitAtRegion addr (pre ++ post) = some (found.1, found.2.1, found.2.2 ++ post) := by
  induction pre generalizing found with
  | nil => cases here
  | cons b pre ih =>
    rw [splitAtRegion] at here
    rw [cons_append, splitAtRegion]
    split at here
    case isTrue inside =>
      cases here
      rw [if_pos inside]
    case isFalse outside =>
      obtain ⟨inner, split, rfl⟩ := map_eq_some_iff.mp here
      rw [if_neg outside, ih split]
      rfl

theorem splitAtRegion_append_none {pre : List Vma} (missing : splitAtRegion addr pre = none)
    (post : List Vma) :
    splitAtRegion addr (pre ++ post) =
      (splitAtRegion addr post).map fun found => (pre ++ found.1, found.2) := by
  induction pre with
  | nil => simp
  | cons b pre ih =>
    rw [splitAtRegion] at missing
    rw [cons_append, splitAtRegion]
    split at missing
    case isTrue => cases missing
    case isFalse outside =>
      rw [map_eq_none_iff] at missing
      rw [if_neg outside, ih missing, Option.map_map]
      rfl

/-- The stack, taken down to the page of `addr`. -/
def grown (stack : Vma) (addr : Nat) : Vma := { stack with start := pageMask addr }

theorem pageRegion_singleton (r : Vma) (v : Nat) :
    pageRegion [r] v = if r.start ≤ v * pageSize ∧ v * pageSize < r.stop then some r else none := by
  rw [pageRegion, splitAtRegion]
  split <;> rfl

theorem pageRegion_append (pre : List Vma) (r : Vma) (v : Nat) :
    pageRegion (pre ++ [r]) v = (pageRegion pre v).or (pageRegion [r] v) := by
  unfold pageRegion
  cases here : splitAtRegion (v * pageSize) pre with
  | some found => simp [splitAtRegion_append_some here]
  | none => simp [splitAtRegion_append_none here, Function.comp_def]

variable {pre post : List Vma} {stack : Vma} {rsp : Nat} (regions : Regions vs)
  (outside : findVmaRegion vs addr = none) (stackLike : sub64 rsp 32 ≤ addr ∧ addr < userStackTop)
  (top : findVmaRegion vs (userStackTop - 1) = some (pre, stack, post))

include regions outside stackLike top

/-- A stack that grows: it is the last region, and its start moves down. -/
theorem growStack_eq :
    vs = pre ++ [stack] ∧ growStack vs addr rsp = pre ++ [grown stack addr] ∧
      pageMask addr ≤ stack.start ∧ splitAtRegion (pageMask (userStackTop - 1)) pre = none ∧
      pageMask addr < stack.stop := by
  obtain ⟨rfl, -⟩ := regions.stack pre stack post top
  have grows : growStack vs addr rsp = pre ++ [grown stack addr] := by
    rw [growStack, if_pos stackLike, top]
    rfl
  rw [findVmaRegion, if_neg (by decide)] at top
  obtain ⟨rfl, low, high⟩ := splitAtRegion_some top
  have page : pageMask addr ≤ pageMask (userStackTop - 1) :=
    Nat.mul_le_mul_right _ (Nat.div_le_div_right (by omega))
  refine ⟨rfl, grows, ?_, ?_, by omega⟩
  · by_contra above
    rw [findVmaRegion] at outside
    split at outside
    case isTrue zero => simp [zero, pageMask] at above
    case isFalse => exact splitAtRegion_none outside ⟨stack, by simp, by omega, by omega⟩
  · cases here : splitAtRegion (pageMask (userStackTop - 1)) pre with
    | none => rfl
    | some found =>
      rw [splitAtRegion_append_some here, Option.some.injEq] at top
      simp at top

theorem pageRegion_grow (v : Nat) :
    pageRegion (growStack vs addr rsp) v = pageRegion vs v ∨
      (pageRegion vs v = some stack ∨ pageRegion vs v = none) ∧
        pageRegion (growStack vs addr rsp) v = some (grown stack addr) := by
  obtain ⟨rfl, grows, below, -⟩ := growStack_eq regions outside stackLike top
  rw [grows, pageRegion_append, pageRegion_append, pageRegion_singleton, pageRegion_singleton]
  cases pageRegion pre v with
  | some r => exact .inl rfl
  | none =>
    by_cases inside : pageMask addr ≤ v * pageSize ∧ v * pageSize < stack.stop
    · refine .inr ⟨?_, if_pos inside⟩
      split
      · exact .inl rfl
      · exact .inr rfl
    · have before : ¬(stack.start ≤ v * pageSize ∧ v * pageSize < stack.stop) := by omega
      rw [if_neg before]
      exact .inl (if_neg inside)

theorem pageRegion_grow_here :
    pageRegion (growStack vs addr rsp) (addr / pageSize) = some (grown stack addr) := by
  have none : pageRegion vs (addr / pageSize) = none := by
    rw [← regions.find, outside]
    rfl
  obtain ⟨rfl, grows, -, -, high⟩ := growStack_eq regions outside stackLike top
  rw [pageRegion_append, Option.or_eq_none_iff] at none
  rw [grows, pageRegion_append, none.1, pageRegion_singleton]
  exact if_pos ⟨le_rfl, high⟩

theorem Regions.grow (above : pageSize ≤ addr) : Regions (growStack vs addr rsp) := by
  have last := regions.stack pre stack post top
  obtain ⟨rfl, grows, -, missing, -⟩ := growStack_eq regions outside stackLike top
  rw [grows]
  refine ⟨fun r member => ?_, fun r member => ?_, fun pre' r post' found => ?_⟩
  · rw [mem_append, mem_singleton] at member
    rcases member with member | rfl
    · exact regions.positive r (mem_append_left _ member)
    · show pageSize ≤ pageMask addr
      unfold pageMask pageSize at *
      omega
  · rw [mem_append, mem_singleton] at member
    rcases member with member | rfl
    · exact regions.zero r (mem_append_left _ member)
    · exact regions.zero stack (by simp)
  · rw [findVmaRegion, if_neg (by decide), splitAtRegion_append_none missing] at found
    obtain ⟨inner, split, same⟩ := map_eq_some_iff.mp found
    rw [splitAtRegion] at split
    split at split
    · cases split
      cases same
      exact ⟨rfl, last.2⟩
    · cases split

end Regions

/-! ## Storage -/

/-- Tables, cache and segments of the processes in `procs` hang together. -/
structure Sound (procs : Set Nat) (w : World) : Prop where
  regions : ∀ root ∈ procs, Regions (w.vmas root)
  covered : ∀ root ∈ procs, ∀ v, (userLeaf w.ptes root v).isSome →
    (pageRegion (w.vmas root) v).isSome
  leaf : ∀ root ∈ procs, ∀ v, ∀ e ∈ userLeaf w.ptes root v, w.free e.phys = false
  hash : ∀ inode offset, ∀ p ∈ w.hash inode offset, w.free p = false
  shm : ∀ object index, ∀ p ∈ w.shmPages object index, w.free p = false

/-- The address is in a private region of the process. -/
def Private (w : World) (root addr : Nat) : Prop :=
  ∃ r ∈ pageRegion (w.vmas root) (addr / pageSize), isPrivate r = true

/-- `r` is the region of the page of `addr`. -/
abbrev InRegion (w : World) (root addr : Nat) (r : Vma) : Prop :=
  pageRegion (w.vmas root) (addr / pageSize) = some r

/-- The page of `addr` is not mapped. -/
abbrev Absent (w : World) (root addr : Nat) : Prop :=
  userLeaf w.ptes root (addr / pageSize) = none

section Storage

variable {procs : Set Nat} {w : World} {root addr : Nat} {r : Vma}

theorem storage_eq (regions : Regions (w.vmas root)) (addr : Nat) :
    w.storage root addr = match pageRegion (w.vmas root) (addr / pageSize) with
      | none => .nothing
      | some r => match userLeaf w.ptes root (addr / pageSize) with
        | some e => .page e.phys
        | none => if r.prot = 0 then .nothing else w.demand r addr := by
  rw [← regions.find, storage]
  cases findVmaRegion (w.vmas root) addr <;> rfl

theorem storage_leaf {e : Pte} (regions : Regions (w.vmas root)) (region : InRegion w root addr r)
    (leaf : userLeaf w.ptes root (addr / pageSize) = some e) : w.storage root addr = .page e.phys := by
  rw [storage_eq regions, region, leaf]

theorem storage_absent (regions : Regions (w.vmas root)) (region : InRegion w root addr r)
    (absent : Absent w root addr) :
    w.storage root addr = if r.prot = 0 then .nothing else w.demand r addr := by
  rw [storage_eq regions, region, absent]

/-- What a private page that is not there is filled from. -/
theorem demand_private (isPriv : isPrivate r = true) (w : World) (addr : Nat) :
    w.demand r addr = match r.inode with
      | some inode =>
        if cachedRegion r then
          match w.hash inode (fileOffset r addr) with
          | some p => .page p
          | none => .uncached inode (fileOffset r addr)
        else .copy inode (fileOffset r addr)
      | none => if r.flags &&& zeroPage ≠ 0 then .zero else .nothing := by
  simp only [isPrivate, Bool.and_eq_true, bne_iff_ne] at isPriv
  unfold demand
  cases r.inode with
  | some inode => rfl
  | none =>
    simp only
    split
    · exact absurd ‹_› isPriv.2
    · rfl

theorem fileOffset_page {addr' : Nat} (same : addr' / pageSize = addr / pageSize) (r : Vma) :
    fileOffset r addr' = fileOffset r addr := by
  have mask : pageMask addr' = pageMask addr := by rw [pageMask, pageMask, same]
  rw [fileOffset, fileOffset, mask]

section

variable (regions : Regions (w.vmas root))
  (region : InRegion w root addr r) (isPriv : isPrivate r = true)

include regions region isPriv

/-- The bytes of a private page have one storage. -/
theorem storage_page {addr' : Nat} (same : addr' / pageSize = addr / pageSize) :
    w.storage root addr' = w.storage root addr := by
  rw [storage_eq regions, storage_eq regions, same, region]
  simp only [demand_private isPriv, fileOffset_page same]

/-- A page that a private address shows is mapped there, or it is in the page cache. -/
theorem storage_private {p : Nat} (shown : w.storage root addr = .page p) :
    (∃ e, userLeaf w.ptes root (addr / pageSize) = some e ∧ e.phys = p) ∨
      ∃ inode offset, w.hash inode offset = some p := by
  cases leaf : userLeaf w.ptes root (addr / pageSize) with
  | some e =>
    rw [storage_leaf regions region leaf, Storage.page.injEq] at shown
    exact .inl ⟨e, rfl, shown⟩
  | none =>
    rw [storage_absent regions region leaf, demand_private isPriv] at shown
    split at shown
    · cases shown
    split at shown
    case h_1 inode _ =>
      split at shown
      · split at shown
        case h_1 q cached =>
          cases shown
          exact .inr ⟨inode, _, cached⟩
        · cases shown
      · cases shown
    · split at shown <;> cases shown

end

theorem Sound.storage_free {p : Nat} (sound : Sound procs w) (member : root ∈ procs)
    (isPriv : Private w root addr) (shown : w.storage root addr = .page p) : w.free p = false := by
  obtain ⟨r, region, isPriv⟩ := isPriv
  rcases storage_private (sound.regions root member) region isPriv shown with
    ⟨e, leaf, rfl⟩ | ⟨inode, offset, cached⟩
  · exact sound.leaf root member _ e leaf
  · exact sound.hash inode offset p cached

theorem Sound.absent {v : Nat} (sound : Sound procs w) (member : root ∈ procs)
    (missing : pageRegion (w.vmas root) v = none) : userLeaf w.ptes root v = none := by
  by_contra present
  have covered := sound.covered root member v (isSome_iff_ne_none.mpr present)
  rw [missing] at covered
  cases covered

end Storage

/-! ## Faults -/

/-- `w'` is `w` with the page `p` mapped at `addr`, in the region `r`: a page that was free and now
holds what was to be seen there, or the one of the page cache or of a segment. -/
structure Brings (w w' : World) (root addr : Nat) (r : Vma) (p : Nat) (rw : Bool) : Prop where
  leaf : ∀ root' v', userLeaf w'.ptes root' v' =
    if root' = root ∧ v' = addr / pageSize then some ⟨root, addr / pageSize, p, rw, true⟩
    else userLeaf w.ptes root' v'
  vmas : w'.vmas = w.vmas
  disk : w'.disk = w.disk
  data : ∀ q, w.free q = false → w'.data q = w.data q
  free : ∀ q, w'.free q = true → w.free q = true ∧ q ≠ p
  hash : ∀ inode offset q, w'.hash inode offset = some q → w.hash inode offset = some q ∨
    (w.hash inode offset = none ∧ q = p ∧ w'.data p = w.disk inode offset ∧
      w.storage root addr = .uncached inode offset)
  hashKept : ∀ inode offset q, w.hash inode offset = some q → w'.hash inode offset = some q
  shm : ∀ object index q, w'.shmPages object index = some q →
    w.shmPages object index = some q ∨ q = p
  mode : userLeaf w.ptes root (addr / pageSize) = none → rw = (r.prot &&& protWrite != 0)
  copied : userLeaf w.ptes root (addr / pageSize) ≠ none → w.free p = true
  origin : w.free p = true ∨ w.storage root addr = .page p
  content : isPrivate r = true → ∀ addr', addr' / pageSize = addr / pageSize →
    w.view root addr' = some (w'.data p (addr' % pageSize))
  exclusive : isPrivate r = true → rw = true →
    w.free p = true ∧ ∀ inode offset, w'.hash inode offset ≠ some p
  cached : isPrivate r = true → w.free p = true ∨ ∃ inode offset, w.hash inode offset = some p

section Faults

variable {procs : Set Nat} {w : World} {root addr p : Nat} {r : Vma} {page : Option Nat} {q : Nat}

theorem free_update (free : update w.free p false q = true) : w.free q = true ∧ q ≠ p := by
  by_cases same : q = p
  · simp [same] at free
  · exact ⟨by simpa [same] using free, same⟩

theorem free_ne (fresh : w.free p = true) (used : w.free q = false) : q ≠ p := by
  rintro rfl
  rw [fresh] at used
  cases used

theorem data_update {bytes : Nat → UInt8} (fresh : w.free p = true)
    (used : w.free q = false) : update w.data p bytes q = w.data q := by
  simp [free_ne fresh used]

theorem update_update (f : Nat → Nat → Option Nat) (i j p i' j' : Nat) :
    update f i (update (f i) j (some p)) i' j' =
      if i' = i ∧ j' = j then some p else f i' j' := by
  by_cases same : i' = i
  · subst same
    simp [update_apply]
  · simp [same]

theorem Sound.hash_ne (sound : Sound procs w) (fresh : w.free p = true) (inode offset : Nat) :
    w.hash inode offset ≠ some p := fun cached => free_ne fresh (sound.hash _ _ p cached) rfl

theorem view_of_storage {addr' : Nat} {storage : Storage} (regions : Regions (w.vmas root))
    (region : InRegion w root addr r) (isPriv : isPrivate r = true)
    (same : addr' / pageSize = addr / pageSize) (shown : w.storage root addr = storage) :
    w.view root addr' = w.content (addr' % pageSize) storage := by
  rw [view, storage_page regions region isPriv same, shown]

theorem copyOnWrite_brings {e : Pte} (sound : Sound procs w) (member : root ∈ procs)
    (region : InRegion w root addr r) (leaf : userLeaf w.ptes root (addr / pageSize) = some e)
    (copied : ¬(r.prot &&& protWrite = 0 ∨ r.flags &&& mapShared ≠ 0)) (fresh : w.free p = true) :
    Brings w (w.copyOnWrite e r (some p)) root addr r p true := by
  have regions := sound.regions root member
  obtain ⟨-, key, -⟩ := userLeaf_some leaf
  obtain ⟨rfl, vpage⟩ : e.root = root ∧ e.vpage = addr / pageSize := by simpa [Pte.key] using key
  rw [copyOnWrite, if_neg copied]
  refine ⟨fun root' v' => ?_, rfl, rfl, fun q used => data_update fresh used,
    fun q free => free_update free, fun _ _ _ => .inl, fun _ _ _ => id, fun _ _ _ => .inl,
    fun absent => ?_, fun _ => fresh, .inl fresh, fun isPriv addr' same => ?_,
    fun _ _ => ⟨fresh, ?_⟩, fun _ => .inl fresh⟩
  · simp only [userLeaf_mapUserPage, vpage]
  · rw [absent] at leaf
    cases leaf
  · rw [view_of_storage regions region isPriv same (storage_leaf regions region leaf)]
    simp [fill, content]
  · exact sound.hash_ne fresh

/-- A new page `p`, filled with `bytes`, for an address that is not mapped. -/
def newPage (w : World) (root addr : Nat) (r : Vma) (p : Nat) (bytes : Nat → UInt8) : World :=
  { w with ptes := mapUserPage w.ptes root (addr / pageSize) p (r.prot &&& protWrite != 0)
           data := update w.data p bytes
           free := update w.free p false }

theorem newPage_brings (root addr : Nat) (r : Vma) (bytes : Nat → UInt8) (sound : Sound procs w)
    (fresh : w.free p = true)
    (content : isPrivate r = true → ∀ addr', addr' / pageSize = addr / pageSize →
      w.view root addr' = some (bytes (addr' % pageSize))) :
    Brings w (newPage w root addr r p bytes) root addr r p (r.prot &&& protWrite != 0) := by
  refine ⟨fun root' v' => userLeaf_mapUserPage _ _ _ _ _ _ _, rfl, rfl,
    fun q used => data_update fresh used, fun q free => free_update free, fun _ _ _ => .inl,
    fun _ _ _ => id, fun _ _ _ => .inl, fun _ => rfl, fun _ => fresh, .inl fresh,
    fun isPriv addr' same => ?_, fun _ _ => ⟨fresh, sound.hash_ne fresh⟩, fun _ => .inl fresh⟩
  rw [content isPriv addr' same]
  simp [newPage]

theorem mapPage_none (absent : Absent w root addr) (prot : Nat) (page : Option Nat) :
    w.mapPage root (addr / pageSize) none prot page = page.map fun p =>
      ({ w with ptes := mapUserPage w.ptes root (addr / pageSize) p (prot &&& protWrite != 0)
                free := update w.free p false }, p) := by
  simp only [mapPage, absent]

theorem mapPage_some (absent : Absent w root addr) (prot p : Nat) (page : Option Nat) :
    w.mapPage root (addr / pageSize) (some p) prot page =
      some ({ w with ptes := mapUserPage w.ptes root (addr / pageSize) p
                               (prot &&& protWrite != 0) }, p) := by
  simp only [mapPage, absent]

variable (sound : Sound procs w) (member : root ∈ procs)
  (region : InRegion w root addr r) (absent : Absent w root addr) {inode : Nat}

include sound member region absent

/-- The page that another address already shows. -/
theorem mapPage_brings (shown : w.storage root addr = .page p) (used : w.free p = false)
    (cached : isPrivate r = true → r.prot &&& protWrite = 0 ∧
      ∃ inode offset, w.hash inode offset = some p) :
    Brings w { w with ptes := mapUserPage w.ptes root (addr / pageSize) p
                               (r.prot &&& protWrite != 0) }
      root addr r p (r.prot &&& protWrite != 0) := by
  refine ⟨fun root' v' => userLeaf_mapUserPage _ _ _ _ _ _ _, rfl, rfl, fun _ _ => rfl,
    fun q free => ⟨free, (free_ne free used).symm⟩, fun _ _ _ => .inl, fun _ _ _ => id,
    fun _ _ _ => .inl, fun _ => rfl, fun present => absurd absent present, .inr shown,
    fun isPriv addr' same => ?_, fun isPriv rights => ?_, fun isPriv => .inr (cached isPriv).2⟩
  · rw [view_of_storage (sound.regions root member) region isPriv same shown]
    rfl
  · simp [(cached isPriv).1] at rights

/-- The page of a file that no cache holds. -/
theorem breadPage_brings (isFile : r.inode = some inode) (accessible : r.prot ≠ 0)
    (missing : cachedRegion r = true → w.hash inode (fileOffset r addr) = none)
    (fresh : w.free p = true) :
    Brings w
      (World.breadPage { w with ptes := mapUserPage w.ptes root (addr / pageSize) p
                                          (r.prot &&& protWrite != 0)
                                free := update w.free p false }
        p inode (fileOffset r addr) r) root addr r p (r.prot &&& protWrite != 0) := by
  have regions := sound.regions root member
  have shown : w.storage root addr = if cachedRegion r then .uncached inode (fileOffset r addr)
      else .copy inode (fileOffset r addr) := by
    rw [storage_absent regions region absent, if_neg accessible, World.demand, isFile]
    by_cases isCached : cachedRegion r = true
    · simp [missing isCached]
    · simp [isCached]
  have plain := newPage_brings root addr r (w.disk inode (fileOffset r addr)) sound fresh
    fun isPriv addr' same => by
      rw [view_of_storage regions region isPriv same shown]
      split <;> rfl
  unfold World.breadPage
  by_cases isCached : cachedRegion r = true
  · rw [if_pos isCached] at shown ⊢
    refine { plain with hash := ?_, hashKept := ?_, exclusive := ?_ }
    · intro i o q hashed
      simp only [update_update] at hashed
      split at hashed
      case isTrue here =>
        obtain ⟨rfl, rfl⟩ := here
        cases hashed
        exact .inr ⟨missing isCached, rfl, by simp [World.fill], shown⟩
      case isFalse => exact .inl hashed
    · intro i o q hashed
      simp only [update_update]
      split
      case isTrue here =>
        rw [here.1, here.2, missing isCached] at hashed
        cases hashed
      case isFalse => exact hashed
    · -- a private region that uses the cache is not writable
      intro isPriv rights
      simp only [isPrivate, Bool.and_eq_true, beq_iff_eq] at isPriv
      simp only [cachedRegion, isPriv.1, bne_self_eq_false, Bool.or_false, beq_iff_eq] at isCached
      simp [isCached] at rights
  · rw [if_neg isCached]
    exact plain

theorem shmMapPage_brings {object : Nat} (isFile : r.inode = none)
    (isShm : r.sType = .shm) (attached : r.object = some object) (accessible : r.prot ≠ 0)
    (fresh : ∀ p ∈ page, w.free p = true) :
    w.shmMapPage root object r addr page = w ∨
      ∃ p rw, Brings w (w.shmMapPage root object r addr page) root addr r p rw := by
  have shared : isPrivate r ≠ true := by simp [isPrivate, isShm]
  unfold shmMapPage
  cases known : w.shmPages object (segmentIndex r addr) with
  | some p =>
    simp only [known, mapPage_some absent]
    refine .inr ⟨p, _, mapPage_brings sound member region absent ?_ (sound.shm object _ p known)
      fun isPriv => absurd isPriv shared⟩
    rw [storage_absent (sound.regions root member) region absent, if_neg accessible, demand,
      isFile, isShm, attached]
    simp [known]
  | none =>
    simp only [known, mapPage_none absent]
    cases page with
    | none => exact .inl rfl
    | some p =>
      have plain := newPage_brings root addr r (w.data p) sound (fresh p rfl)
        fun isPriv => absurd isPriv shared
      refine .inr ⟨p, _, { plain with data := fun _ _ => rfl, hash := fun _ _ _ => .inl,
                                           shm := ?_, content := ?_ }⟩
      · intro o k q mapped
        simp only [map_some, update_update] at mapped
        split at mapped
        · exact .inr (Option.some.inj mapped).symm
        · exact .inl mapped
      · exact fun isPriv => absurd isPriv shared

theorem mapFile_brings (isFile : r.inode = some inode) (accessible : r.prot ≠ 0)
    (fresh : ∀ p ∈ page, w.free p = true) :
    ∀ found ∈ w.mapFile root inode r addr page, ∃ rw, Brings w found.1 root addr r found.2 rw := by
  intro found mapped
  unfold World.mapFile at mapped
  simp only at mapped
  split at mapped
  case h_1 p hashed =>
    split at hashed
    case isFalse => cases hashed
    case isTrue isCached =>
      rw [mapPage_some absent] at mapped
      cases mapped
      refine ⟨_, mapPage_brings sound member region absent ?_ (sound.hash inode _ p hashed)
        fun isPriv => ⟨?_, inode, _, hashed⟩⟩
      · rw [storage_absent (sound.regions root member) region absent, if_neg accessible,
          World.demand, isFile]
        simp [isCached, hashed]
      · simp only [isPrivate, Bool.and_eq_true, beq_iff_eq] at isPriv
        simpa [cachedRegion, isPriv.1] using isCached
  case h_2 missing =>
    rw [mapPage_none absent, Option.map_map] at mapped
    obtain ⟨p, given, rfl⟩ := map_eq_some_iff.mp mapped
    refine ⟨_, breadPage_brings sound member region absent isFile accessible (fun isCached => ?_)
      (fresh p given)⟩
    rwa [if_pos isCached] at missing

/-- A page is brought in, or the fault fails. -/
theorem pageNotPresent_brings (fresh : ∀ p ∈ page, w.free p = true) :
    w.pageNotPresent root r addr page = w ∨
      ∃ p rw, Brings w (w.pageNotPresent root r addr page) root addr r p rw := by
  have regions := sound.regions root member
  have zero := regions.zero r (pageRegion_mem region)
  unfold pageNotPresent
  split
  case isTrue => exact .inl rfl
  case isFalse accessible =>
  cases isFile : r.inode with
  | some inode =>
    have notZero : ¬r.flags &&& zeroPage ≠ 0 := fun flag => by
      have := (zero flag).1
      rw [isFile] at this
      cases this
    simp only [notZero]
    cases mapped : w.mapFile root inode r addr page with
    | none => exact .inl rfl
    | some found =>
      obtain ⟨rw, brings⟩ := mapFile_brings sound member region absent isFile accessible fresh
        found mapped
      exact .inr ⟨found.2, rw, brings⟩
  | none =>
    simp only
    by_cases attached : r.sType = .shm ∧ r.object.isSome
    · obtain ⟨isShm, attached⟩ := attached
      obtain ⟨object, attached⟩ := isSome_iff_exists.mp attached
      have notZero : ¬r.flags &&& zeroPage ≠ 0 := fun flag => (zero flag).2 isShm
      simp only [mapSegment, isShm, attached, notZero]
      exact shmMapPage_brings sound member region absent isFile isShm attached accessible fresh
    · have others : w.mapSegment root r addr page = w := by
        unfold mapSegment
        split
        case h_1 object isShm known => exact absurd ⟨isShm, by simp [known]⟩ attached
        case h_2 => rfl
      rw [others]
      split
      case isFalse => exact .inl rfl
      case isTrue flag =>
        rw [mapPage_none absent]
        cases page with
        | none => exact .inl rfl
        | some p =>
          refine .inr ⟨p, _, newPage_brings root addr r (fun _ => 0) sound (fresh p rfl)
            fun isPriv addr' same => ?_⟩
          have shown : w.storage root addr = .zero := by
            rw [storage_absent regions region absent, if_neg accessible, demand_private isPriv,
              isFile]
            simp only [if_pos flag]
          rw [view_of_storage regions region isPriv same shown]
          rfl

end Faults

/-! ## The machine -/

/-- Who wrote which byte where, the last one first. -/
abbrev Stores := List (Nat × Nat × UInt8)

/-- The world after a fork, and the bytes that were written since, the last one first. -/
structure Session where
  world : World
  log : Stores

inductive Label
  | access (root addr rsp : Nat) (store : Option UInt8) (page : Option Nat)
  deriving DecidableEq

/-- The log with the byte that an access wrote. -/
def record (root addr : Nat) (log : Stores) : Option UInt8 → Stores
  | some b => (root, addr, b) :: log
  | none => log

def step (parent child : Nat) (s : Session) : Label → Option Session
  | .access root addr rsp store page =>
    if (root = parent ∨ root = child) ∧ page.all s.world.free then
      let (w, stored) := s.world.access root addr rsp store page
      some ⟨w, record root addr s.log stored⟩
    else none

/-- The last byte that the process wrote at `addr`. -/
def lastStore (log : Stores) (root addr : Nat) : Option UInt8 :=
  (log.find? fun x => x.1 = root && x.2.1 = addr).map (·.2.2)

/-- What the process should read: its own last write, and before that what the parent had there at the
fork. A stack that has grown since begins with zeros. -/
def expected (start : World) (parent : Nat) (log : Stores) (root addr : Nat) :
    UInt8 :=
  (lastStore log root addr).getD ((start.view parent addr).getD 0)

structure Inv (procs : Set Nat) (start : World) (parent : Nat) (s : Session) : Prop
    extends Sound procs s.world where
  kept : ∀ root ∈ procs, ∀ v, (pageRegion (start.vmas parent) v).isSome →
    (pageRegion (s.world.vmas root) v).isSome
  logged : ∀ x ∈ s.log, (pageRegion (s.world.vmas x.1) (x.2.1 / pageSize)).isSome
  /-- The page of a writable private leaf is nowhere else. -/
  exclusive : ∀ root ∈ procs, ∀ v, ∀ e ∈ userLeaf s.world.ptes root v,
    ∀ r ∈ pageRegion (s.world.vmas root) v, isPrivate r = true → e.rw = true →
      (∀ inode offset, s.world.hash inode offset ≠ some e.phys) ∧
        ∀ root' ∈ procs, ∀ v', ∀ e' ∈ userLeaf s.world.ptes root' v',
          ∀ r' ∈ pageRegion (s.world.vmas root') v', isPrivate r' = true → e'.phys = e.phys →
            root' = root ∧ v' = v
  content : ∀ root ∈ procs, ∀ addr, Private s.world root addr → ∀ b ∈ s.world.view root addr,
    b = expected start parent s.log root addr

/-! ## Bringing in a page -/

section Bring

variable {procs : Set Nat} {w w' : World} {root addr p : Nat} {r : Vma} {rw : Bool}

section

variable (brings : Brings w w' root addr r p rw) {root' : Nat} {addr' : Nat}

include brings

theorem Brings.leaf_cases {v' : Nat} {e : Pte} (found : userLeaf w'.ptes root' v' = some e) :
    (root' = root ∧ v' = addr / pageSize ∧ e = ⟨root, addr / pageSize, p, rw, true⟩) ∨
      (¬(root' = root ∧ v' = addr / pageSize) ∧ userLeaf w.ptes root' v' = some e) := by
  rw [brings.leaf] at found
  split at found
  case isTrue here => exact .inl ⟨here.1, here.2, by cases found; rfl⟩
  case isFalse other => exact .inr ⟨other, found⟩

theorem Brings.new : w'.free p = false := by
  by_contra free
  exact (brings.free p (by simpa using free)).2 rfl

theorem Brings.used {q : Nat} (used : w.free q = false) : w'.free q = false := by
  by_contra free
  have := (brings.free q (by simpa using free)).1
  rw [used] at this
  cases this

theorem Brings.sound (sound : Sound procs w)
    (region : InRegion w root addr r) : Sound procs w' := by
  refine ⟨?_, ?_, ?_, ?_, ?_⟩
  · rw [brings.vmas]
    exact sound.regions
  · intro root' member v present
    obtain ⟨e, found⟩ := isSome_iff_exists.mp present
    rw [brings.vmas]
    rcases brings.leaf_cases found with ⟨rfl, rfl, -⟩ | ⟨-, old⟩
    · simp [region]
    · exact sound.covered root' member v (by simp [old])
  · intro root' member v e found
    rcases brings.leaf_cases found with ⟨-, -, rfl⟩ | ⟨-, old⟩
    · exact brings.new
    · exact brings.used (sound.leaf root' member v e old)
  · intro inode offset q hashed
    rcases brings.hash inode offset q hashed with old | ⟨-, rfl, -⟩
    · exact brings.used (sound.hash inode offset q old)
    · exact brings.new
  · intro object index q mapped
    rcases brings.shm object index q mapped with old | rfl
    · exact brings.used (sound.shm object index q old)
    · exact brings.new

/-- Elsewhere only a page of a file that is now in the cache changes its storage. -/
theorem Brings.storage (regions : Regions (w.vmas root')) (isPriv : Private w root' addr')
    (other : ¬(root' = root ∧ addr' / pageSize = addr / pageSize)) :
    w'.storage root' addr' = w.storage root' addr' ∨
      ∃ inode offset, w.storage root' addr' = .uncached inode offset ∧
        w'.storage root' addr' = .page p ∧ w'.data p = w.disk inode offset ∧
        w.storage root addr = .uncached inode offset := by
  obtain ⟨r', region, isPriv⟩ := isPriv
  have regions' : Regions (w'.vmas root') := brings.vmas ▸ regions
  have region' : pageRegion (w'.vmas root') (addr' / pageSize) = some r' := brings.vmas ▸ region
  have leaf := brings.leaf root' (addr' / pageSize)
  rw [if_neg other] at leaf
  rw [storage_eq regions', storage_eq regions, region', region, leaf]
  cases userLeaf w.ptes root' (addr' / pageSize) with
  | some e => exact .inl rfl
  | none =>
    simp only [demand_private isPriv]
    by_cases accessible : r'.prot = 0
    · simp [accessible]
    cases isFile : r'.inode with
    | none => exact .inl rfl
    | some inode =>
      by_cases isCached : cachedRegion r' = true
      · simp only [accessible, isCached]
        cases old : w.hash inode (fileOffset r' addr') with
        | some q => simp [brings.hashKept _ _ _ old]
        | none =>
          cases new : w'.hash inode (fileOffset r' addr') with
          | none => exact .inl rfl
          | some q =>
            rcases brings.hash _ _ _ new with same | ⟨-, rfl, data, shown⟩
            · rw [old] at same
              cases same
            · exact .inr ⟨_, _, rfl, rfl, data, shown⟩
      · simp [isCached]

/-- No private address changes its content. -/
theorem Brings.view (sound : Sound procs w) (region : InRegion w root addr r)
    (member : root' ∈ procs) (isPriv : Private w root' addr') :
    w'.view root' addr' = w.view root' addr' := by
  have regions := sound.regions root' member
  by_cases here : root' = root ∧ addr' / pageSize = addr / pageSize
  · obtain ⟨rfl, same⟩ := here
    obtain ⟨r', region', isPriv⟩ := isPriv
    obtain rfl : r = r' := by
      rw [same, region] at region'
      simpa using region'
    rw [brings.content isPriv addr' same, World.view,
      storage_leaf (brings.vmas ▸ regions) (brings.vmas ▸ region')
        (by rw [brings.leaf, if_pos ⟨rfl, same⟩])]
    rfl
  · rw [World.view, World.view]
    rcases brings.storage regions isPriv here with same | ⟨inode, offset, old, new, data, -⟩
    · rw [same]
      cases shown : w.storage root' addr' with
      | page q =>
        have used := sound.storage_free member isPriv shown
        simp [World.content, brings.data q used]
      | _ => simp [World.content, brings.disk]
    · rw [old, new]
      simp [World.content, data]

end

theorem Inv.brings {start : World} {parent : Nat} {log : Stores}
    (inv : Inv procs start parent ⟨w, log⟩) (brings : Brings w w' root addr r p rw)
    (region : InRegion w root addr r) :
    Inv procs start parent ⟨w', log⟩ := by
  have sound := inv.toSound
  have vmas := brings.vmas
  refine ⟨brings.sound sound region, ?_, ?_, ?_, ?_⟩
  · simp only [vmas]
    exact inv.kept
  · simp only [vmas]
    exact inv.logged
  · intro root₁ member₁ v₁ e₁ found₁ r₁ region₁ isPriv₁ writable
    simp only [vmas] at region₁ ⊢
    rcases brings.leaf_cases found₁ with ⟨rfl, rfl, rfl⟩ | ⟨other₁, old₁⟩
    · -- the new leaf: its page was free
      obtain rfl : r = r₁ := by simpa [region] using region₁
      obtain ⟨fresh, notCached⟩ := brings.exclusive isPriv₁ writable
      refine ⟨notCached, fun root₂ member₂ v₂ e₂ found₂ r₂ region₂ isPriv₂ same => ?_⟩
      rcases brings.leaf_cases found₂ with ⟨rfl, rfl, -⟩ | ⟨-, old₂⟩
      · exact ⟨rfl, rfl⟩
      · exact absurd same (free_ne fresh (sound.leaf root₂ member₂ v₂ e₂ old₂))
    · obtain ⟨notCached, alone⟩ := inv.exclusive root₁ member₁ v₁ e₁ old₁ r₁ region₁ isPriv₁ writable
      have used := sound.leaf root₁ member₁ v₁ e₁ old₁
      refine ⟨fun inode offset hashed => ?_,
        fun root₂ member₂ v₂ e₂ found₂ r₂ region₂ isPriv₂ same => ?_⟩
      · rcases brings.hash inode offset _ hashed with old | ⟨-, isNew, -, shown⟩
        · exact notCached inode offset old
        rcases brings.origin with fresh | page
        · exact free_ne fresh used isNew
        · rw [page] at shown
          cases shown
      · rcases brings.leaf_cases found₂ with ⟨rfl, rfl, rfl⟩ | ⟨-, old₂⟩
        · obtain rfl : r = r₂ := by simpa [region] using region₂
          rcases brings.cached isPriv₂ with fresh | ⟨inode, offset, hashed⟩
          · exact absurd same.symm (free_ne fresh used)
          · exact absurd (same ▸ hashed) (notCached inode offset)
        · exact alone root₂ member₂ v₂ e₂ old₂ r₂ region₂ isPriv₂ same
  · intro root₁ member₁ addr₁ isPriv b seen
    have isPriv : Private w root₁ addr₁ := by
      unfold Private at isPriv ⊢
      rwa [← vmas]
    rw [brings.view sound region member₁ isPriv] at seen
    exact inv.content root₁ member₁ addr₁ isPriv b seen

end Bring

/-! ## A stack that grows -/

section Grow

variable {procs : Set Nat} {start w : World} {parent root addr rsp : Nat}
  {log : Stores} {pre post : List Vma} {stack : Vma}

def growWorld (w : World) (root addr rsp : Nat) : World :=
  { w with vmas := update w.vmas root (growStack (w.vmas root) addr rsp) }

/-- A region is as before but for its start, or it is new. -/
theorem growWorld_region (regions : Regions (w.vmas root))
    (outside : findVmaRegion (w.vmas root) addr = none)
    (stackLike : sub64 rsp 32 ≤ addr ∧ addr < userStackTop)
    (top : findVmaRegion (w.vmas root) (userStackTop - 1) = some (pre, stack, post)) (root' v : Nat) :
    pageRegion ((growWorld w root addr rsp).vmas root') v = pageRegion (w.vmas root') v ∨
      root' = root ∧ (pageRegion (w.vmas root) v = some stack ∨ pageRegion (w.vmas root) v = none) ∧
        pageRegion ((growWorld w root addr rsp).vmas root') v = some (grown stack addr) := by
  by_cases same : root' = root
  · subst same
    simpa [growWorld] using pageRegion_grow regions outside stackLike top v
  · exact .inl (by simp [growWorld, same])

theorem Inv.grow (inv : Inv procs start parent ⟨w, log⟩) (member : root ∈ procs)
    (atStart : Regions (start.vmas parent)) (outside : findVmaRegion (w.vmas root) addr = none)
    (stackLike : sub64 rsp 32 ≤ addr ∧ addr < userStackTop)
    (top : findVmaRegion (w.vmas root) (userStackTop - 1) = some (pre, stack, post))
    (above : pageSize ≤ addr) : Inv procs start parent ⟨growWorld w root addr rsp, log⟩ := by
  have regions := inv.regions root member
  obtain ⟨-, notFile, -⟩ := regions.stack pre stack post top
  have lookup := growWorld_region regions outside stackLike top
  have keeps : ∀ root' v, (pageRegion (w.vmas root') v).isSome →
      (pageRegion ((growWorld w root addr rsp).vmas root') v).isSome := by
    intro root' v here
    rcases lookup root' v with same | ⟨-, -, new⟩
    · rwa [same]
    · simp [new]
  have regions' : ∀ root' ∈ procs, Regions ((growWorld w root addr rsp).vmas root') := by
    intro root' member'
    by_cases same : root' = root
    · subst same
      simpa [growWorld] using regions.grow outside stackLike top above
    · simpa [growWorld, same] using inv.regions root' member'
  refine ⟨⟨regions', fun root' member' v present => keeps _ _ (inv.covered root' member' v present),
    inv.leaf, inv.hash, inv.shm⟩, fun root' member' v here => keeps _ _ (inv.kept root' member' v here),
    fun x logged => keeps _ _ (inv.logged x logged), ?_, ?_⟩
  · -- a leaf lies in an old region, which is private if the grown one is
    have old : ∀ root' ∈ procs, ∀ v, ∀ e ∈ userLeaf w.ptes root' v,
        ∀ r ∈ pageRegion ((growWorld w root addr rsp).vmas root') v, isPrivate r = true →
          ∃ r' ∈ pageRegion (w.vmas root') v, isPrivate r' = true := by
      intro root' member' v e found r region isPriv
      rcases lookup root' v with same | ⟨rfl, before | before, new⟩
      · exact ⟨r, same ▸ region, isPriv⟩
      · rw [new, mem_some_iff] at region
        subst region
        exact ⟨stack, before, isPriv⟩
      · rw [inv.toSound.absent member' before] at found
        cases found
    intro root₁ member₁ v₁ e₁ found₁ r₁ region₁ isPriv₁ writable
    obtain ⟨r₁', region₁', isPriv₁'⟩ := old root₁ member₁ v₁ e₁ found₁ r₁ region₁ isPriv₁
    obtain ⟨notCached, alone⟩ :=
      inv.exclusive root₁ member₁ v₁ e₁ found₁ r₁' region₁' isPriv₁' writable
    refine ⟨notCached, fun root₂ member₂ v₂ e₂ found₂ r₂ region₂ isPriv₂ same => ?_⟩
    obtain ⟨r₂', region₂', isPriv₂'⟩ := old root₂ member₂ v₂ e₂ found₂ r₂ region₂ isPriv₂
    exact alone root₂ member₂ v₂ e₂ found₂ r₂' region₂' isPriv₂' same
  · intro root₁ member₁ addr₁ isPriv b seen
    obtain ⟨r₁, region₁, isPriv₁⟩ := isPriv
    rw [view, storage_eq (regions' root₁ member₁)] at seen
    have oldStorage := storage_eq (inv.regions root₁ member₁) addr₁
    rcases lookup root₁ (addr₁ / pageSize) with same | ⟨rfl, before | before, new⟩
    · refine inv.content root₁ member₁ addr₁ ⟨r₁, same ▸ region₁, isPriv₁⟩ b ?_
      rw [same] at seen
      rw [view, oldStorage]
      exact seen
    · rw [new, mem_some_iff] at region₁
      subst region₁
      have isPriv : isPrivate stack = true := isPriv₁
      refine inv.content root₁ member₁ addr₁ ⟨stack, before, isPriv⟩ b ?_
      have demand : (growWorld w root₁ addr rsp).demand (grown stack addr) addr₁ =
          w.demand stack addr₁ := by
        rw [demand_private isPriv, demand_private (r := grown stack addr) isPriv]
        simp [grown, notFile]
      rw [new] at seen
      simp only [demand] at seen
      rw [view, oldStorage, before]
      exact seen
    · -- a new address: there is no leaf, no write in the log, and there was no region at the fork
      have absent := inv.toSound.absent member₁ before
      have noStore : lastStore log root₁ addr₁ = none := by
        rw [lastStore, map_eq_none_iff, List.find?_eq_none]
        intro x inLog
        have logged := inv.logged x inLog
        rintro same
        simp only [Bool.and_eq_true, decide_eq_true_eq] at same
        rw [same.1, same.2, before] at logged
        cases logged
      have noRegion : pageRegion (start.vmas parent) (addr₁ / pageSize) = none := by
        by_contra region
        have here := inv.kept root₁ member₁ _ (isSome_iff_ne_none.mpr region)
        rw [before] at here
        cases here
      have nothing : start.view parent addr₁ = none := by
        rw [view, storage_eq atStart, noRegion]
        rfl
      rw [expected, noStore, nothing]
      rw [new, mem_some_iff] at region₁
      have isPriv : isPrivate (grown stack addr) = true := region₁ ▸ isPriv₁
      rw [new] at seen
      simp only [growWorld, absent, demand_private isPriv] at seen
      simp only [grown, notFile] at seen
      split at seen
      · cases seen
      split at seen
      · cases seen
        rfl
      · cases seen

end Grow

/-! ## Storing a byte -/

/-- The private addresses that show the page `p` are those of one page of `root`. -/
def OnlyAt (procs : Set Nat) (w : World) (root v p : Nat) : Prop :=
  ∀ root' ∈ procs, ∀ addr', Private w root' addr' → w.storage root' addr' = .page p →
    root' = root ∧ addr' / pageSize = v

section Store

variable {procs : Set Nat} {start w : World} {parent root addr : Nat} {r : Vma} {e : Pte} {b : UInt8}
  {log : Stores}

theorem lastStore_cons (root₁ addr₁ : Nat) :
    lastStore ((root, addr, b) :: log) root₁ addr₁ =
      if root₁ = root ∧ addr₁ = addr then some b else lastStore log root₁ addr₁ := by
  unfold lastStore
  by_cases same : root₁ = root ∧ addr₁ = addr
  · simp [same]
  · have other : ¬(root = root₁ ∧ addr = addr₁) := fun h => same ⟨h.1.symm, h.2.symm⟩
    rw [if_neg same, List.find?_cons_of_neg (by simpa using other)]

variable (inv : Inv procs start parent ⟨w, log⟩) (member : root ∈ procs)
  (region : InRegion w root addr r)

include inv member region

/-- A byte is stored in a page that private addresses show only here, if at all. -/
theorem Inv.store (leaf : userLeaf w.ptes root (addr / pageSize) = some e)
    (only : OnlyAt procs w root (addr / pageSize) e.phys) :
    Inv procs start parent
      ⟨w.fill e.phys (update (w.data e.phys) (addr % pageSize) b), (root, addr, b) :: log⟩ := by
  refine ⟨⟨inv.regions, inv.covered, inv.leaf, inv.hash, inv.shm⟩, inv.kept, ?_, inv.exclusive, ?_⟩
  · intro x inLog
    rcases mem_cons.mp inLog with rfl | inLog
    · show (pageRegion (w.vmas root) (addr / pageSize)).isSome
      simp [region]
    · exact inv.logged x inLog
  · intro root₁ member₁ addr₁ isPriv b₁ seen
    have old := inv.content root₁ member₁ addr₁ isPriv
    simp only [expected] at old ⊢
    rw [lastStore_cons]
    by_cases here : root₁ = root ∧ addr₁ = addr
    · obtain ⟨rfl, rfl⟩ := here
      change World.content (w.fill e.phys _) _ (w.storage root₁ addr₁) = some b₁ at seen
      rw [storage_leaf (inv.regions root₁ member₁) region leaf] at seen
      simpa [World.content, World.fill] using seen.symm
    · rw [if_neg here]
      refine old b₁ ?_
      rw [World.view] at seen ⊢
      change World.content (w.fill e.phys _) _ (w.storage root₁ addr₁) = some b₁ at seen
      cases shown : w.storage root₁ addr₁ with
      | page q =>
        rw [shown] at seen
        by_cases same : q = e.phys
        · -- the page of the store: another byte of it
          subst same
          obtain ⟨rfl, samePage⟩ := only root₁ member₁ addr₁ isPriv shown
          have otherByte : addr₁ % pageSize ≠ addr % pageSize := by
            intro sameByte
            have first := Nat.div_add_mod addr₁ pageSize
            rw [samePage, sameByte, Nat.div_add_mod] at first
            exact here ⟨rfl, first.symm⟩
          simpa [World.content, World.fill, otherByte] using seen
        · simpa [World.content, World.fill, same] using seen
      | _ => rwa [shown] at seen

/-- A writable private leaf is the only place of its page. -/
theorem Inv.only_private (isPriv : isPrivate r = true)
    (leaf : userLeaf w.ptes root (addr / pageSize) = some e) (writable : e.rw = true) :
    OnlyAt procs w root (addr / pageSize) e.phys := by
  obtain ⟨notCached, alone⟩ := inv.exclusive root member _ e leaf r region isPriv writable
  rintro root' member' addr' ⟨r', region', isPriv'⟩ shown
  rcases storage_private (inv.regions root' member') region' isPriv' shown with
    ⟨e', leaf', same⟩ | ⟨inode, offset, cached⟩
  · exact alone root' member' _ e' leaf' r' region' isPriv' same
  · exact absurd cached (notCached inode offset)

end Store

/-! ## Accesses -/

/-- A write to `addr` goes straight to the page that is there, or that a fault finds. -/
def storesThrough (w : World) (root addr : Nat) (r : Vma) : Bool :=
  match userLeaf w.ptes root (addr / pageSize) with
  | some e => e.rw
  | none => r.prot &&& protWrite != 0

/-- A write through a region that is not private hits no page that a private address shows. -/
def SafeStore (procs : Set Nat) (w : World) (root addr : Nat) : Prop :=
  ∀ r ∈ pageRegion (w.vmas root) (addr / pageSize), isPrivate r = false →
    storesThrough w root addr r = true →
      ∀ other ∈ procs, ∀ addr', Private w other addr' →
        w.storage other addr' = w.storage root addr → w.storage root addr = .nothing

section Access

variable {procs : Set Nat} {start w w' : World} {parent root addr rsp p : Nat} {r : Vma} {rw : Bool}
  {log : Stores} {page : Option Nat}

variable (inv : Inv procs start parent ⟨w, log⟩) (member : root ∈ procs)

include inv member

theorem Brings.only (brings : Brings w w' root addr r p true) (region : InRegion w root addr r)
    (safe : SafeStore procs w root addr) : OnlyAt procs w' root (addr / pageSize) p := by
  have after := inv.brings brings region
  have region' : pageRegion (w'.vmas root) (addr / pageSize) = some r := brings.vmas ▸ region
  by_cases isPriv : isPrivate r = true
  · have leaf : userLeaf w'.ptes root (addr / pageSize) =
        some ⟨root, addr / pageSize, p, true, true⟩ := by
      rw [brings.leaf, if_pos ⟨rfl, rfl⟩]
    exact after.only_private member region' isPriv leaf rfl
  · intro root' member' addr' isPriv' shown
    by_cases here : root' = root ∧ addr' / pageSize = addr / pageSize
    · exact here
    have isPriv' : Private w root' addr' := by
      unfold Private at isPriv' ⊢
      rwa [← brings.vmas]
    exfalso
    -- a page that was free shows up elsewhere only through the cache
    have fresh : w.free p = true → w.storage root' addr' ≠ .page p := fun free old =>
      free_ne free (inv.toSound.storage_free member' isPriv' old) rfl
    cases leaf : userLeaf w.ptes root (addr / pageSize) with
    | some e =>
      have free := brings.copied (by simp [leaf])
      have target := storage_leaf (inv.regions root member) region leaf
      rcases brings.storage (inv.regions root' member') isPriv' here with same | ⟨_, _, -, -, -, source⟩
      · exact fresh free (same ▸ shown)
      · rw [target] at source
        cases source
    | none =>
      have through : storesThrough w root addr r = true := by
        rw [storesThrough, leaf]
        exact (brings.mode leaf).symm
      have unseen := safe r region (by simpa using isPriv) through root' member' addr' isPriv'
      rcases brings.storage (inv.regions root' member') isPriv' here with
        same | ⟨inode, offset, old, -, -, source⟩
      · rw [same] at shown
        rcases brings.origin with free | target
        · exact fresh free shown
        · rw [shown, target] at unseen
          cases unseen rfl
      · rw [old, source] at unseen
        cases unseen rfl

/-- What a fault leaves: the invariant, and a writable leaf only where a byte may be stored. -/
def Faulted (procs : Set Nat) (start : World) (parent : Nat) (log : Stores)
    (w w' : World) (root addr : Nat) : Prop :=
  Inv procs start parent ⟨w', log⟩ ∧
    (SafeStore procs w root addr → ∀ e ∈ userLeaf w'.ptes root (addr / pageSize), e.rw = true →
      OnlyAt procs w' root (addr / pageSize) e.phys)

theorem Brings.faulted (brings : Brings w w' root addr r p rw) (region : InRegion w root addr r) :
    Faulted procs start parent log w w' root addr := by
  refine ⟨inv.brings brings region, fun safe e found writable => ?_⟩
  rw [mem_def, brings.leaf, if_pos ⟨rfl, rfl⟩, Option.some.injEq] at found
  subst found
  obtain rfl := writable
  exact brings.only inv member region safe

theorem Faulted.refl : Faulted procs start parent log w w root addr := by
  refine ⟨inv, fun safe e leaf writable => ?_⟩
  have covered := inv.covered root member _ (isSome_iff_exists.mpr ⟨e, leaf⟩)
  obtain ⟨r, region⟩ := isSome_iff_exists.mp covered
  by_cases isPriv : isPrivate r = true
  · exact inv.only_private member region isPriv leaf writable
  intro root' member' addr' isPriv' shown
  have target := storage_leaf (inv.regions root member) region leaf
  have through : storesThrough w root addr r = true := by
    rw [storesThrough, leaf]
    exact writable
  have unseen := safe r region (by simpa using isPriv) through root' member' addr' isPriv'
  rw [shown, target] at unseen
  cases unseen rfl

variable (atStart : Regions (start.vmas parent)) (fresh : ∀ p ∈ page, w.free p = true)
  (above : findVmaRegion (w.vmas root) addr = none → sub64 rsp 32 ≤ addr → addr < userStackTop →
    pageSize ≤ addr)

include atStart fresh above

theorem fault_faulted :
    Faulted procs start parent log w (w.fault root addr rsp page) root addr := by
  have sound := inv.toSound
  have regions := inv.regions root member
  have found := regions.find addr
  unfold fault
  cases lookup : findVmaRegion (w.vmas root) addr with
  | some split =>
    obtain ⟨_, r, _⟩ := split
    rw [lookup] at found
    have region := found.symm
    cases leaf : userLeaf w.ptes root (addr / pageSize) with
    | some e =>
      by_cases copied : r.prot &&& protWrite = 0 ∨ r.flags &&& mapShared ≠ 0
      · simp only [copyOnWrite, if_pos copied]
        exact Faulted.refl inv member
      · cases page with
        | none =>
          simp only [copyOnWrite, if_neg copied]
          exact Faulted.refl inv member
        | some p =>
          exact (copyOnWrite_brings sound member region leaf copied (fresh p rfl)).faulted inv
            member region
    | none =>
      rcases pageNotPresent_brings sound member region leaf fresh with same | ⟨p, rw, brings⟩
      · simp only [same]
        exact Faulted.refl inv member
      · exact brings.faulted inv member region
  | none =>
    rw [lookup] at found
    simp only
    split
    case isFalse => exact Faulted.refl inv member
    case isTrue stackLike =>
      cases top : findVmaRegion (w.vmas root) (userStackTop - 1) with
      | none => exact Faulted.refl inv member
      | some split =>
        obtain ⟨pre, stack, post⟩ := split
        have grownInv := inv.grow member atStart lookup stackLike top
          (above lookup stackLike.1 stackLike.2)
        have region : pageRegion ((growWorld w root addr rsp).vmas root) (addr / pageSize) =
            some (grown stack addr) := by
          simpa [growWorld] using pageRegion_grow_here regions lookup stackLike top
        have absent := sound.absent member found.symm
        have isPriv : isPrivate (grown stack addr) = true := (regions.stack pre stack post top).2.2
        have safe : SafeStore procs (growWorld w root addr rsp) root addr := by
          intro r here shared
          rw [region, mem_some_iff] at here
          rw [← here, isPriv] at shared
          cases shared
        have faulted : Faulted procs start parent log (growWorld w root addr rsp)
            ((growWorld w root addr rsp).pageNotPresent root (grown stack addr) addr page) root
            addr := by
          rcases pageNotPresent_brings grownInv.toSound member region absent fresh with
            same | ⟨p, rw, brings⟩
          · rw [same]
            exact Faulted.refl grownInv member
          · exact brings.faulted grownInv member region
        exact ⟨faulted.1, fun _ => faulted.2 safe⟩

theorem access_inv {store : Option UInt8} (safe : store.isSome → SafeStore procs w root addr) :
    Inv procs start parent ⟨(w.access root addr rsp store page).1,
      record root addr log (w.access root addr rsp store page).2⟩ := by
  have faulted : Faulted procs start parent log w (w.settle root addr rsp store page) root addr := by
    unfold settle
    split
    · exact Faulted.refl inv member
    · exact fault_faulted inv member atStart fresh above
  unfold access
  unfold perform
  split
  case h_1 b e leaf =>
    split
    case isTrue writable =>
      have covered := faulted.1.covered root member _ (isSome_iff_exists.mpr ⟨e, leaf⟩)
      obtain ⟨r, region⟩ := isSome_iff_exists.mp covered
      exact faulted.1.store member region leaf (faulted.2 (safe rfl) e leaf writable)
    case isFalse => exact faulted.1
  case h_2 => exact faulted.1

end Access

/-! ## The fork -/

/-- A process that can fork: its tables and regions hang together, and the child has no table yet. -/
structure Ready (w : World) (parent child : Nat) : Prop extends Sound {parent} w where
  nodup : (w.ptes.map Pte.key).Nodup
  noChild : ∀ e ∈ w.ptes, e.root ≠ child

section Fork

variable {w : World} {parent child : Nat} {root : Nat}

theorem userLeaf_clone (parent child : Nat) (es ptes : List Pte) (isProc : root = parent ∨ root = child)
    (v : Nat) :
    userLeaf (es.foldr (fun e ptes => mapUserPage (mapUserPage ptes child e.vpage e.phys true) parent
        e.vpage e.phys true) ptes) root v =
      match es.find? (·.vpage = v) with
      | some e => some ⟨root, v, e.phys, true, true⟩
      | none => userLeaf ptes root v := by
  induction es with
  | nil => rfl
  | cons e es ih =>
    rw [foldr_cons, userLeaf_mapUserPage, userLeaf_mapUserPage, ih]
    by_cases here : e.vpage = v
    · subst here
      by_cases isParent : root = parent
      · simp [isParent]
      · obtain rfl := isProc.resolve_left isParent
        simp [isParent]
    · rw [List.find?_cons_of_neg (by simpa using here)]
      simp [Ne.symm here]

/-- The leaves of both tables before `clone_pages`. -/
theorem userLeaf_fork (ready : Ready w parent child)
    (isProc : root = parent ∨ root = child) (v : Nat) :
    let ptes := protectLeaves (w.vmas parent) parent none w.ptes ++
      copyLeaves (w.vmas parent) parent child none w.ptes
    userLeaf ptes root v = (userLeaf w.ptes parent v).map fun e =>
      { cowLeaf (w.vmas parent) e with root := root } := by
  intro ptes
  have nodup : (ptes.map Pte.key).Nodup := nodup_fork ready.nodup ready.noChild
  obtain ⟨f, protect, kept, cow⟩ := protectLeaves_eq_map (w.vmas parent) parent none w.ptes
  cases old : userLeaf w.ptes parent v with
  | some e =>
    obtain ⟨member, key, user⟩ := (userLeaf_eq_some ready.nodup).mp old
    obtain ⟨isRoot, isPage⟩ : e.root = parent ∧ e.vpage = v := by simpa [Pte.key] using key
    have reachedE : reached parent none e = true := by simp [reached, isRoot]
    rw [map_some, userLeaf_eq_some nodup]
    refine ⟨?_, by simp [Pte.key, cowLeaf_vpage, isPage], (cowLeaf_us _ e).trans user⟩
    rcases isProc with rfl | rfl
    · have sameRoot := (congrArg Prod.fst (cowLeaf_key (w.vmas root) e)).trans isRoot
      have same : ({ cowLeaf (w.vmas root) e with root := root } : Pte) = f e := by
        rw [cow e reachedE]
        generalize cowLeaf (w.vmas root) e = g at sameRoot
        subst sameRoot
        rfl
      rw [same]
      exact mem_append_left _ (protect ▸ mem_map_of_mem member)
    · exact mem_append_right _ (mem_copyLeaves.mpr ⟨e, member, reachedE, rfl⟩)
  | none =>
    by_contra present
    obtain ⟨e', found⟩ := isSome_iff_exists.mp (isSome_iff_ne_none.mpr present)
    obtain ⟨member, key, user⟩ := (userLeaf_eq_some nodup).mp found
    have absent : ∀ g ∈ w.ptes, g.us = true → g.root = parent → g.vpage = v → False := by
      rintro g inTable user rfl rfl
      rw [userLeaf_of_mem ready.nodup inTable user] at old
      cases old
    obtain ⟨isRoot, isPage⟩ : e'.root = root ∧ e'.vpage = v := by simpa [Pte.key] using key
    rw [mem_append, protect, mem_map] at member
    rcases member with ⟨g, inTable, rfl⟩ | copied
    · have keys := (kept g).1
      rw [Pte.key, Pte.key, Prod.mk.injEq] at keys
      rw [(kept g).2.2] at user
      have notChild := ready.noChild g inTable
      have sameRoot : g.root = root := keys.1 ▸ isRoot
      have isParent := isProc.resolve_right fun isChild =>
        notChild (sameRoot.trans isChild)
      exact absent g inTable user (sameRoot.trans isParent) (keys.2 ▸ isPage)
    · obtain ⟨g, inTable, fromParent, rfl⟩ := mem_copyLeaves.mp copied
      refine absent g inTable ((cowLeaf_us _ g).symm.trans user) ?_ ?_
      · simpa [reached] using fromParent
      · exact (cowLeaf_vpage _ g).symm.trans isPage

/-- After the fork both tables have the leaves of the parent; those that are writable lie in shared
regions. -/
theorem fork_leaf (ready : Ready w parent child) (isProc : root = parent ∨ root = child) (v : Nat) :
    (userLeaf (w.fork parent child).ptes root v).map Pte.phys =
        (userLeaf w.ptes parent v).map Pte.phys ∧
      ∀ e ∈ userLeaf (w.fork parent child).ptes root v, e.rw = true →
        ∃ r ∈ pageRegion (w.vmas parent) v, r.flags &&& mapShared ≠ 0 := by
  have before := userLeaf_fork ready isProc v
  have ofChild := userLeaf_fork ready (.inr rfl) v
  have nodup : ((protectLeaves (w.vmas parent) parent none w.ptes ++
    copyLeaves (w.vmas parent) parent child none w.ptes).map Pte.key).Nodup :=
    nodup_fork ready.nodup ready.noChild
  simp only [fork] at before ofChild ⊢
  generalize protectLeaves (w.vmas parent) parent none w.ptes ++
    copyLeaves (w.vmas parent) parent child none w.ptes = ptes at *
  rw [clonePages, userLeaf_clone parent child _ ptes isProc v]
  split
  case h_1 e found =>
    -- made writable by `clone_pages`
    have isPage : e.vpage = v := by simpa using List.find?_some found
    have inFilter := mem_of_find?_eq_some found
    simp only [mem_filter, Bool.and_eq_true, decide_eq_true_eq] at inFilter
    obtain ⟨member, ⟨isChild, user⟩, shared⟩ := inFilter
    have leaf : userLeaf _ child v = some e :=
      (userLeaf_eq_some nodup).mpr ⟨member, by simp [Pte.key, isChild, isPage], user⟩
    rw [ofChild, map_eq_some_iff] at leaf
    obtain ⟨old, present, rfl⟩ := leaf
    refine ⟨by rw [present]; simp [cowLeaf_phys], fun _ _ _ => ?_⟩
    rw [isPage, sharedPage, Option.any_eq_true] at shared
    obtain ⟨split, region, flag⟩ := shared
    exact ⟨split.2.1, by simp [pageRegion, region], by simpa using flag⟩
  case h_2 =>
    rw [before]
    refine ⟨by simp [Function.comp_def, cowLeaf_phys], fun e found writable => ?_⟩
    rw [mem_def, map_eq_some_iff] at found
    obtain ⟨old, present, rfl⟩ := found
    obtain ⟨-, key, user⟩ := userLeaf_some present
    have isPage : old.vpage = v := congrArg Prod.snd key
    have writable : (cowLeaf (w.vmas parent) old).rw = true := writable
    unfold cowLeaf at writable
    split at writable
    · cases writable
    case isFalse kept =>
      have shared : vmaIsShared (w.vmas parent) (v * pageSize) = true := by
        simpa [user, writable, isPage] using kept
      unfold vmaIsShared at shared
      split at shared
      case h_1 r _ region =>
        refine ⟨r, ?_, by simpa using shared⟩
        rw [findVmaRegion] at region
        split at region
        · cases region
        · rw [pageMask_of_mod (Nat.mul_mod_left _ _)] at region
          simp [pageRegion, region]
      case h_2 => cases shared

theorem fork_vmas (w : World) (isProc : root = parent ∨ root = child) :
    (w.fork parent child).vmas root = w.vmas parent := by
  by_cases isChild : root = child
  · simp [fork, isChild]
  · obtain rfl := isProc.resolve_right isChild
    simp [fork, isChild]

def both (parent child : Nat) : Set Nat := {root | root = parent ∨ root = child}

theorem fork_inv (ready : Ready w parent child) :
    Inv (both parent child) w parent ⟨w.fork parent child, []⟩ := by
  have regions := ready.regions parent rfl
  have phys : ∀ root ∈ both parent child, ∀ v, ∀ e ∈ userLeaf (w.fork parent child).ptes root v,
      ∃ old ∈ userLeaf w.ptes parent v, old.phys = e.phys := by
    intro root isProc v e found
    have same := (fork_leaf ready isProc v).1
    rw [found, map_some, eq_comm, map_eq_some_iff] at same
    exact same
  refine ⟨⟨?_, ?_, ?_, ready.hash, ready.shm⟩, ?_, by simp, ?_, ?_⟩
  · intro root isProc
    rw [fork_vmas w isProc]
    exact regions
  · intro root isProc v present
    obtain ⟨e, found⟩ := isSome_iff_exists.mp present
    obtain ⟨old, there, -⟩ := phys root isProc v e found
    rw [fork_vmas w isProc]
    exact ready.covered parent rfl v (isSome_iff_exists.mpr ⟨old, there⟩)
  · intro root isProc v e found
    obtain ⟨old, there, same⟩ := phys root isProc v e found
    exact same ▸ ready.leaf parent rfl v old there
  · intro root isProc v here
    rwa [fork_vmas w isProc]
  · -- no private leaf is writable
    intro root isProc v e found r region isPriv writable
    obtain ⟨r', region', shared⟩ := (fork_leaf ready isProc v).2 e found writable
    rw [fork_vmas w isProc] at region
    obtain rfl : r' = r := by
      rw [mem_def] at region region'
      rw [region, Option.some.injEq] at region'
      exact region'.symm
    simp only [isPrivate, Bool.and_eq_true, beq_iff_eq] at isPriv
    exact absurd isPriv.1 shared
  · intro root isProc addr isPriv b seen
    have shown : (w.fork parent child).storage root addr = w.storage parent addr := by
      have leaf := (fork_leaf ready isProc (addr / pageSize)).1
      rw [storage_eq (fork_vmas w isProc ▸ regions), storage_eq regions, fork_vmas w isProc]
      cases pageRegion (w.vmas parent) (addr / pageSize) with
      | none => rfl
      | some r =>
        cases old : userLeaf w.ptes parent (addr / pageSize) with
        | some e =>
          rw [old, map_some, map_eq_some_iff] at leaf
          obtain ⟨e', found, same⟩ := leaf
          simp [found, same]
        | none =>
          rw [old, Option.map_none, map_eq_none_iff] at leaf
          simp only [leaf]
          rfl
    rw [view, shown] at seen
    have seen : w.view parent addr = some b := seen
    simp [expected, lastStore, seen]

end Fork

/-! ## Every run -/

/-- The stack does not grow onto page 0, and shared pages that are written to are not shown at a
private address. -/
def Isolated (parent child : Nat) (s : Session) : Label → Prop
  | .access root addr rsp store _ =>
    (findVmaRegion (s.world.vmas root) addr = none → sub64 rsp 32 ≤ addr → addr < userStackTop →
      pageSize ≤ addr) ∧
    (store.isSome → SafeStore (both parent child) s.world root addr)

theorem step_inv {parent child : Nat} {start : World} (atStart : Regions (start.vmas parent))
    (s : Session) (a : Label) (s' : Session) (inv : Inv (both parent child) start parent s)
    (safe : Isolated parent child s a) (taken : step parent child s a = some s') :
    Inv (both parent child) start parent s' := by
  obtain ⟨root, addr, rsp, store, page⟩ := a
  simp only [step] at taken
  split at taken
  case isFalse => cases taken
  case isTrue guard =>
    obtain ⟨isProc, fresh⟩ := guard
    have fresh : ∀ p ∈ page, s.world.free p = true := by
      intro p given
      simpa [mem_def.mp given] using fresh
    cases taken
    exact access_inv inv isProc atStart fresh safe.1 safe.2

/-- **What a process reads in its private regions after a fork is its own**: the last byte that it
wrote there, or what the parent had there at the fork. -/
theorem fork_isolation (w : World) (parent child : Nat) (labels : List Label) (s : Session)
    (ready : Ready w parent child)
    (safe : Guarded (step parent child) (Isolated parent child) ⟨w.fork parent child, []⟩ labels)
    (ran : run (step parent child) ⟨w.fork parent child, []⟩ labels = some s) :
    ∀ root ∈ both parent child, ∀ addr, Private s.world root addr →
      ∀ b, s.world.view root addr = some b → b = expected w parent s.log root addr := by
  have atStart := ready.regions parent rfl
  exact (run_inv (step_inv atStart) (fork_inv ready) safe ran).content

/-! ## Poles -/

/-- Text and a second, shared mapping of its file for reading only, a heap and a stack. The two
mappings show page 3 of the page cache. -/
def program : World where
  ptes := [⟨1, 0x400, 3, false, true⟩, ⟨1, 0x500, 3, false, true⟩, ⟨1, 0x600, 4, true, true⟩]
  vmas := fun _ =>
    [⟨0x400000, 0x402000, 5, 0x12, 0, .text, some 7, 0, none⟩,
      ⟨0x500000, 0x501000, 1, 0x01, 0, .mmap, some 7, 0, none⟩,
      ⟨0x600000, 0x602000, 3, 0x80000012, 0, .heap, none, 0, none⟩,
      ⟨userStackTop - 0x1000, userStackTop, 3, 0x80000012, 0, .stack, none, 0, none⟩]
  data := fun _ _ => 0
  free := fun p => 8 ≤ p
  hash := fun inode offset => if inode = 7 ∧ offset = 0 then some 3 else none
  shmPages := fun _ _ => none
  disk := fun _ _ _ => 0

theorem program_ready : Ready program 1 2 := by
  have leaves : ∀ root v, ∀ e ∈ userLeaf program.ptes root v, e ∈ program.ptes ∧ e.vpage = v := by
    intro root v e found
    obtain ⟨member, key, -⟩ := userLeaf_some found
    exact ⟨member, congrArg Prod.snd key⟩
  refine ⟨⟨?_, ?_, ?_, ?_, ?_⟩, by decide +kernel, by decide +kernel⟩
  · rintro root rfl
    refine ⟨by decide +kernel, by decide +kernel, fun pre r post found => ?_⟩
    have top : (findVmaRegion (program.vmas 1) (userStackTop - 1)).all (fun found =>
        found.2.2 = [] ∧ found.2.1.inode = none ∧ isPrivate found.2.1 = true) = true := by
      decide +kernel
    simpa [found] using top
  · intro root _ v present
    obtain ⟨e, found⟩ := isSome_iff_exists.mp present
    obtain ⟨member, rfl⟩ := leaves root v e found
    have all : ∀ e ∈ program.ptes, (pageRegion (program.vmas 0) e.vpage).isSome := by decide +kernel
    exact all e member
  · intro root _ v e found
    have all : ∀ e ∈ program.ptes, program.free e.phys = false := by decide +kernel
    exact all e (leaves root v e found).1
  · intro inode offset p cached
    simp only [program, mem_def, Option.ite_none_right_eq_some, Option.some.injEq] at cached
    obtain ⟨-, rfl⟩ := cached
    decide
  · intro object index p mapped
    cases mapped

def privateTest (s : Session) : Label → Bool
  | .access root addr _ store _ =>
    decide (pageSize ≤ addr) &&
      (store.isNone || (pageRegion (s.world.vmas root) (addr / pageSize)).all isPrivate)

theorem isolated_of_privateTest (parent child : Nat) (s : Session) (a : Label)
    (passed : privateTest s a = true) : Isolated parent child s a := by
  obtain ⟨root, addr, rsp, store, page⟩ := a
  simp only [privateTest, Bool.and_eq_true, decide_eq_true_eq, Bool.or_eq_true] at passed
  refine ⟨fun _ _ _ => passed.1, fun some r region shared => ?_⟩
  rcases passed.2 with none | all
  · cases store <;> simp_all
  · rw [mem_def] at region
    rw [region, Option.all_some, shared] at all
    cases all

/-- Both write to the heap, to a page that was there and to a new one; the child's stack grows; the
parent reads its text. -/
def forkedRun : List Label :=
  [.access 1 0x600004 0 (some 1) (some 8), .access 2 0x600004 0 (some 2) (some 9),
    .access 2 0x601000 0 (some 3) (some 10), .access 1 0x601000 0 none (some 11),
    .access 2 (userStackTop - 0x1010) (userStackTop - 0x1000) (some 4) (some 12),
    .access 1 0x400000 0 none none, .access 1 0x401000 0 none (some 13)]

theorem fork_isolation_forkedRun :
    ∃ s, run (step 1 2) ⟨program.fork 1 2, []⟩ forkedRun = some s ∧
      ∀ root ∈ both 1 2, ∀ addr, Private s.world root addr →
        ∀ b, s.world.view root addr = some b → b = expected program 1 s.log root addr := by
  refine exists_run (by decide +kernel) fun s ran => ?_
  exact fork_isolation program 1 2 forkedRun s program_ready
    (Guarded.of_test (isolated_of_privateTest 1 2) (by decide +kernel)) ran

/-- **The child writes to a mapping that it may only read, and the parent's text changes**: the
`clone_pages` of the fork has made the shared leaf writable, and its page is that of the text. -/
theorem read_only_mapping_written :
    ((program.vmas 2).any fun r => r.start = 0x500000 && r.prot &&& protWrite = 0) = true ∧
      program.view 1 0x400000 = some 0 ∧
      (run (step 1 2) ⟨program.fork 1 2, []⟩ [.access 2 0x500000 0 (some 255) none]).any
        (fun s => (pageRegion (s.world.vmas 1) 0x400).any isPrivate &&
          s.world.view 1 0x400000 = some 255 && lastStore s.log 1 0x400000 = none) = true := by
  decide +kernel

end Argentum.Mm.ForkIsolation
