/-
# Mm.CowAccounting — reference counts of private pages

A physical page that the kernel hands out for a private user page carries a count, `pg->count`.
`Accounted`: the count is the number of leaves, over all tables, that map the page, and a page no
leaf maps any more is back with the allocator.

The machine runs anonymous faults (with stack growth), copy-on-write faults, forks, `munmap` and
exits; the kernel takes and gives back pages of its own in between. `cow_accounting` says that the
accounts stay right under `SafeLabel`. The main exception: `page_protection_violation` copies a
page even when this leaf is the last that maps it, and then lowers its count with `page_ref_put`,
which frees nothing (`last_copy_leaks`). Pages are also lost when `create_pml4_64` or
`map_page_flags` run out of table pages half way, and at exit in regions whose length does not fit
`__size_t`.
-/
import Argentum.Mm.PageTable
import Argentum.Mm.VmaInvariant

namespace Argentum.Mm.CowAccounting

open Lib Lib.Machine List

/-! ## Physical pages -/

/-- What the allocator has given a page to: nobody, the kernel, or a private user page. -/
inductive Use
  | free
  | kernel
  | user
  deriving DecidableEq

structure Page where
  count : Int
  use : Use
  deriving DecidableEq

/-- All tables, the regions of each process, and `page_table[]` with its `NR_PAGES`. -/
structure Memory where
  ptes : List Pte
  vmas : Nat → Option (List Vma)
  page : Nat → Page
  nrPages : Nat

namespace Memory

variable (m : Memory) (root : Nat) (vs : List Vma) (addr rsp : Nat)

variable (p : Nat) (page : Page)

def setPage : Memory :=
  { m with page := Function.update m.page p page }

def setVmas (vs : Option (List Vma)) : Memory :=
  { m with vmas := Function.update m.vmas root vs }

/-- `get_free_page`, for a page of the given use. -/
def getFreePage (use : Use) : Memory := m.setPage p ⟨1, use⟩

/-- The bitmap can hand out `p`, and `page_table[]` has it. -/
def available : Bool := (m.page p).use = .free && p < m.nrPages

def releasePage : Memory :=
  let count := (m.page p).count - 1
  m.setPage p ⟨count, if count > 0 then (m.page p).use else .free⟩

def pageRefGet : Memory :=
  if p ≥ m.nrPages then m else m.setPage p { m.page p with count := (m.page p).count + 1 }

def pageRefPut : Memory :=
  if p ≥ m.nrPages then m
  else if (m.page p).count > 0 then
    m.setPage p { m.page p with count := (m.page p).count - 1 }
  else m

/-! ## Faults -/

def mapNewPage (root vpage p : Nat) (rw : Bool) : Memory :=
  { m.getFreePage p .user with ptes := mapUserPage m.ptes root vpage p rw }

/-- `page_not_present` in the anonymous region `r`: `map_page` takes a page, then needs the tables
above the leaf. The page is not given back when it does not get them. -/
def pageNotPresent (root vpage : Nat) (r : Vma) (page : Option Nat) (tables : Bool) : Memory :=
  if r.prot = 0 then m
  else match userLeaf m.ptes root vpage, page with
    | some _, _ => m
    | none, none => m
    | none, some p =>
      if tables then m.mapNewPage root vpage p (r.prot &&& protWrite ≠ 0)
      else m.getFreePage p .user

/-- The regions that `page_protection_violation` copies pages of. -/
def copiedRegion (r : Vma) : Bool :=
  r.prot &&& protWrite != 0 && r.flags &&& mapShared == 0

/-- `page_protection_violation`: a private copy, and one reference less to the old page. -/
def copyOnWrite (e : Pte) (r : Vma) (page : Option Nat) : Memory :=
  if copiedRegion r then
    match page with
    | none => m
    | some p => (m.mapNewPage e.root e.vpage p true).pageRefPut e.phys
  else m

/-- The regions that `page_not_present` maps anonymous pages in. -/
def anonymousRegion (r : Vma) : Bool :=
  r.inode.isNone && r.sType != .shm && r.flags &&& zeroPage != 0

/-- The region that `page_not_present` works with; outside all of them, the stack. -/
def faultRegion : Option Vma :=
  match findVmaRegion vs addr with
  | some (_, r, _) => some r
  | none =>
    if sub64 rsp 32 ≤ addr ∧ addr < userStackTop then
      (findVmaRegion vs (userStackTop - 1)).map (·.2.1)
    else none

/-- `do_page_fault` for an access to `addr`. Without a region the process gets its `SIGSEGV`. -/
def access (write : Bool) (page : Option Nat) (tables : Bool) : Option Memory :=
  let vpage := addr / pageSize
  match findVmaRegion vs addr, userLeaf m.ptes root vpage with
  | some (_, r, _), some e => if write && !e.rw then some (m.copyOnWrite e r page) else some m
  | _, _ =>
    match faultRegion vs addr rsp with
    | none => some m
    | some r =>
      if anonymousRegion r then
        let m := m.setVmas root (some (pageFault vs addr rsp))
        some (m.pageNotPresent root vpage r page tables)
      else none

/-! ## Forks, unmapping, exit -/

/-- `create_pml4_64` for a fork. Without a table page the child's tables are freed again, and
nothing else is undone. -/
def fork (parent child : Nat) (vs : List Vma) (stop : Option Nat) : Memory :=
  let copies := copyLeaves vs parent child stop m.ptes
  let counted := (copies.filter (·.us)).foldl (fun m e => m.pageRefGet e.phys) m
  let protect := { counted with ptes := protectLeaves vs parent stop m.ptes }
  if stop.isSome then protect
  else { protect.setVmas child (some vs) with ptes := protect.ptes ++ copies }

/-- One round of `free_vma_pages`. -/
def freeVmaPage (m : Memory) (vpage : Nat) : Memory :=
  match userLeaf m.ptes root vpage with
  | none => m
  | some e =>
    let m : Memory := { m with ptes := unmapUserPage m.ptes root vpage }
    if (m.page e.phys).count > 1 then
      m.setPage e.phys ⟨(m.page e.phys).count - 1, (m.page e.phys).use⟩
    else m.releasePage e.phys

def freeVmaPages (m : Memory) (start length : Nat) : Memory :=
  ((List.range (length / pageSize)).map fun n => (start + n * pageSize) / pageSize).foldl
    (freeVmaPage root) m

/-- The pieces that the loop of `do_munmap` (`munmapLoop`) passes to `free_vma_pages`. -/
def munmapPieces : Nat → List Vma → Nat → Nat → List Bool → List (Nat × Nat)
  | 0, _, _, _, _ => []
  | fuel + 1, vs, addr, length, mem =>
    if length = 0 then []
    else match findVmaRegion vs addr with
      | none => []
      | some (pre, r, post) =>
        let size := if add64 addr length > r.stop then sub64 r.stop addr else length
        let without := if r.start = addr then pre ++ post else pre ++ { r with stop := addr } :: post
        let (vs, mem) := freeVmaRegion vs without r addr size mem
        (addr, size) :: munmapPieces fuel vs (add64 addr size) (sub32 length size) mem

def munmap (addr length : Nat) (mem : List Bool) : Memory :=
  match doMunmap vs addr length mem with
  | (.error _, _, _) => m
  | (.ok _, vs', _) =>
    let pieces := munmapPieces (unmapLength length) vs addr (unmapLength length) mem
    (pieces.foldl (fun m piece => freeVmaPages root m piece.1 piece.2) m).setVmas root (some vs')

/-- `release_binary`, then `free_pml4_64`: the tables go with whatever leaves they still hold. -/
def exit : Memory :=
  let m := vs.foldl (fun m r => freeVmaPages root m r.start ((r.stop - r.start) % 2 ^ 32)) m
  { m.setVmas root none with ptes := m.ptes.filter (·.root ≠ root) }

end Memory

/-! ## The machine -/

inductive Label
  | access (root addr rsp : Nat) (write : Bool) (page : Option Nat) (tables : Bool)
  | fork (parent child : Nat) (stop : Option Nat)
  | munmap (root addr length : Nat) (mem : List Bool)
  | exit (root : Nat)
  | kernelTakes (p : Nat)
  | kernelGives (p : Nat)
  deriving DecidableEq

section

variable (m : Memory) (root : Nat) (vs : List Vma) (addr rsp : Nat)

def step : Label → Option Memory
  | .access root addr rsp write page tables =>
    if page.all m.available then
      (m.vmas root).bind fun vs => m.access root vs addr rsp write page tables
    else none
  | .fork parent child stop =>
    if (m.vmas child).isSome then none
    else (m.vmas parent).map fun vs => m.fork parent child vs stop
  | .munmap root addr length mem => (m.vmas root).map fun vs => m.munmap root vs addr length mem
  | .exit root => (m.vmas root).map fun vs => m.exit root vs
  | .kernelTakes p => if m.available p then some (m.getFreePage p .kernel) else none
  | .kernelGives p => if (m.page p).use = .kernel then some (m.releasePage p) else none

/-! ## The accounts -/

/-- The number of user leaves that map `p`. -/
def mapCount (ptes : List Pte) (p : Nat) : Nat := ptes.countP fun e => e.us && e.phys == p

/-- The count of a private user page is the number of its leaves, and a page is handed out for one
as long as it has a leaf. -/
def Accounted : Prop :=
  ∀ p, ((m.page p).use = .user → (m.page p).count = mapCount m.ptes p) ∧
    ((m.page p).use = .user ↔ 0 < mapCount m.ptes p)

/-- A page that a write to `addr` would copy has other leaves too. -/
def SharedCopy (addr : Nat) : Prop :=
  ∀ e ∈ userLeaf m.ptes root (addr / pageSize), ∀ found ∈ findVmaRegion vs addr,
    e.rw = false → Memory.copiedRegion found.2.1 = true → 1 < (m.page e.phys).count

/-- An access to `addr` needs no new anonymous page. -/
def MapsNothing : Prop :=
  ∀ r ∈ Memory.faultRegion vs addr rsp, r.prot ≠ 0 → userLeaf m.ptes root (addr / pageSize) ≠ none

/-- The calls that keep the accounts: a copy is made of a page that others map too, the tables above
a new leaf are there, a fork that fails has copied no leaf yet, a range has no piece of 2 GiB, the
stack meets no other region, and every leaf is in the part of its region that exit walks. -/
def SafeLabel : Label → Prop
  | .access root addr rsp write page tables =>
    ∀ vs ∈ m.vmas root,
      SafeFault vs addr rsp ∧
        (write = true → page.isSome → SharedCopy m root vs addr) ∧
        (page.isSome → tables = false → MapsNothing m root vs addr rsp)
  | .fork parent _ stop => ∀ t ∈ stop, ∀ e ∈ m.ptes, e.root = parent → t ≤ e.vpage / 512
  | .munmap root addr length _ => ∀ vs ∈ m.vmas root, SafeMunmap vs addr length
  | .exit root =>
    ∀ vs ∈ m.vmas root, ∀ r ∈ vs, ∀ e ∈ m.ptes, e.root = root → r.start ≤ e.vpage * pageSize →
      e.vpage * pageSize < r.stop → e.vpage * pageSize < r.start + (r.stop - r.start) % 2 ^ 32
  | .kernelTakes _ | .kernelGives _ => True

/-- Tables and pages agree, and the tables have one leaf per page address. -/
structure Core : Prop where
  nodup : (m.ptes.map Pte.key).Nodup
  user : ∀ e ∈ m.ptes, e.us = true
  bound : ∀ p, (m.page p).use = .user → p < m.nrPages
  accounted : Accounted m

structure Inv : Prop extends Core m where
  covered : ∀ e ∈ m.ptes, ∃ vs, m.vmas e.root = some vs ∧ e.vpage * pageSize ∈ mapped vs
  space : ∀ root vs, m.vmas root = some vs → Space vs

end

open Memory

section Pages

variable {m : Memory} {root vpage p q : Nat} {e : Pte} {ptes : List Pte}

theorem Core.mapCount_pos (core : Core m) (member : e ∈ m.ptes) : 0 < mapCount m.ptes e.phys :=
  countP_pos_iff.mpr ⟨e, member, by simp [core.user e member]⟩

theorem Core.use_phys (core : Core m) (member : e ∈ m.ptes) : (m.page e.phys).use = .user :=
  (core.accounted e.phys).2.mpr (core.mapCount_pos member)

theorem Core.mapCount_zero (core : Core m) (use : (m.page p).use ≠ .user) :
    mapCount m.ptes p = 0 := by
  by_contra some
  exact use ((core.accounted p).2.mpr (Nat.pos_of_ne_zero some))

theorem mapCount_cons (user : e.us = true) :
    mapCount (e :: ptes) p = mapCount ptes p + if e.phys = p then 1 else 0 := by
  simp [mapCount, countP_cons, user]

theorem mapCount_unmap (nodup : (ptes.map Pte.key).Nodup) (member : e ∈ ptes)
    (user : e.us = true) (p : Nat) :
    mapCount ptes p =
      mapCount (unmapUserPage ptes e.root e.vpage) p + if e.phys = p then 1 else 0 := by
  rw [← mapCount_cons user]
  exact (perm_unmapUserPage nodup member).countP_eq _

@[simp] theorem setPage_ptes (page : Page) : (m.setPage p page).ptes = m.ptes := rfl

@[simp] theorem setPage_page_same (page : Page) : (m.setPage p page).page p = page := by
  simp [setPage]

theorem setPage_page_other (page : Page) (other : q ≠ p) : (m.setPage p page).page q = m.page q := by
  simp [setPage, other]

end Pages

/-! ## Unmapping -/

/-- The leaves of `root` at `pages` are gone, and nothing else. -/
structure Unmaps (root : Nat) (pages : Set Nat) (m m' : Memory) : Prop where
  core : Core m'
  leaves : ∀ e, e ∈ m'.ptes ↔ e ∈ m.ptes ∧ ¬(e.root = root ∧ e.vpage ∈ pages)
  vmas : m'.vmas = m.vmas
  kernel : ∀ p, (m'.page p).use = .kernel → (m.page p).use = .kernel

section Unmapping

variable {m m' m'' : Memory} {root vpage : Nat} {e : Pte} {pages pages' : Set Nat} {length : Nat}
  {addr v : Nat} {vs : List Vma}

theorem Unmaps.refl (core : Core m) : Unmaps root ∅ m m :=
  ⟨core, fun e => by simp, rfl, fun _ => id⟩

theorem Unmaps.trans (first : Unmaps root pages m m') (second : Unmaps root pages' m' m'') :
    Unmaps root (pages ∪ pages') m m'' := by
  refine ⟨second.core, fun e => ?_, second.vmas.trans first.vmas, fun p use =>
    first.kernel p (second.kernel p use)⟩
  rw [second.leaves, first.leaves, Set.mem_union]
  tauto

/-- The last leaf takes the page with it, by whichever branch. -/
theorem freeVmaPage_some (found : userLeaf m.ptes root vpage = some e)
    (use : (m.page e.phys).use = .user) :
    freeVmaPage root m vpage =
      setPage { m with ptes := unmapUserPage m.ptes root vpage } e.phys
        ⟨(m.page e.phys).count - 1, if 1 < (m.page e.phys).count then .user else .free⟩ := by
  rw [freeVmaPage, found]
  simp only [use]
  split
  · rfl
  case isFalse last =>
    have last : ¬0 < (m.page e.phys).count - 1 := by omega
    simp only [releasePage, last, if_false]

theorem freeVmaPage_unmaps (core : Core m) (root vpage : Nat) :
    Unmaps root {vpage} m (freeVmaPage root m vpage) := by
  cases found : userLeaf m.ptes root vpage with
  | none =>
    rw [freeVmaPage, found]
    refine ⟨core, fun e => ⟨fun member => ⟨member, ?_⟩, And.left⟩, rfl, fun _ => id⟩
    rintro ⟨rfl, rfl⟩
    rw [userLeaf_of_mem core.nodup member (core.user e member)] at found
    cases found
  | some e =>
    obtain ⟨member, key, user⟩ := userLeaf_some found
    have use := core.use_phys member
    obtain ⟨rfl, rfl⟩ : e.root = root ∧ e.vpage = vpage := by simpa [Pte.key] using key
    rw [freeVmaPage_some found use]
    refine ⟨⟨nodup_unmapUserPage core.nodup _ _, ?_, ?_, ?_⟩, ?_, rfl, ?_⟩
    · exact fun f inside => core.user f (mem_unmapUserPage.mp inside).1
    · intro q useQ
      by_cases same : q = e.phys
      · exact same ▸ core.bound e.phys use
      · rw [setPage_page_other _ same] at useQ
        exact core.bound q useQ
    · intro q
      have old := core.accounted q
      have fewer := mapCount_unmap core.nodup member user q
      rw [setPage_ptes]
      by_cases same : q = e.phys
      · subst same
        have count := old.1 use
        rw [if_pos rfl] at fewer
        have more : 1 < (m.page e.phys).count ↔
            0 < mapCount (unmapUserPage m.ptes e.root e.vpage) e.phys := by omega
        rw [setPage_page_same, ← more]
        refine ⟨fun _ => by simp only; omega, ?_⟩
        by_cases others : 1 < (m.page e.phys).count <;> simp [others]
      · rw [if_neg (Ne.symm same), Nat.add_zero] at fewer
        rw [setPage_page_other _ same, ← fewer]
        exact old
    · intro f
      show f ∈ unmapUserPage _ _ _ ↔ _
      rw [mem_unmapUserPage]
      simp [Pte.key]
    · intro q useQ
      by_cases same : q = e.phys
      · rw [same, setPage_page_same] at useQ
        split at useQ <;> cases useQ
      · rwa [setPage_page_other _ same] at useQ

theorem foldl_freeVmaPage_unmaps (core : Core m) (root : Nat) (vpages : List Nat) :
    Unmaps root {v | v ∈ vpages} m (vpages.foldl (freeVmaPage root) m) := by
  induction vpages generalizing m with
  | nil => simpa using Unmaps.refl core
  | cons v vpages ih =>
    have one := freeVmaPage_unmaps core root v
    have all := one.trans (ih one.core)
    have same : ({v} ∪ {w | w ∈ vpages} : Set Nat) = {w | w ∈ v :: vpages} := by
      ext w
      simp
    exact same ▸ all

/-- The page numbers of `[start, start + length)`, for the piece that is freed. -/
def piecePages (piece : Nat × Nat) : Set Nat :=
  {v | ∃ n < piece.2 / pageSize, (piece.1 + n * pageSize) / pageSize = v}

theorem freeVmaPages_unmaps (core : Core m) (root start length : Nat) :
    Unmaps root (piecePages (start, length)) m (freeVmaPages root m start length) := by
  have all := foldl_freeVmaPage_unmaps core root
    ((List.range (length / pageSize)).map fun n => (start + n * pageSize) / pageSize)
  simpa [piecePages, freeVmaPages] using all

theorem foldl_pieces_unmaps (core : Core m) (root : Nat) (pieces : List (Nat × Nat)) :
    Unmaps root {v | ∃ piece ∈ pieces, v ∈ piecePages piece} m
      (pieces.foldl (fun m piece => freeVmaPages root m piece.1 piece.2) m) := by
  induction pieces generalizing m with
  | nil => simpa using Unmaps.refl core
  | cons piece pieces ih =>
    have one := freeVmaPages_unmaps core root piece.1 piece.2
    have all := one.trans (ih one.core)
    have same : (piecePages piece ∪ {v | ∃ piece ∈ pieces, v ∈ piecePages piece} : Set Nat) =
        {v | ∃ other ∈ piece :: pieces, v ∈ piecePages other} := by
      ext v
      simp
    exact same ▸ all

/-- The pages of an aligned piece. -/
theorem mem_piecePages {start : Nat} (aligned : start % pageSize = 0)
    (whole : length % pageSize = 0) (low : start ≤ v * pageSize)
    (high : v * pageSize < start + length) : v ∈ piecePages (start, length) := by
  unfold pageSize at *
  refine ⟨v - start / 4096, ?_, ?_⟩
  · unfold pageSize
    omega
  · unfold pageSize
    omega

theorem munmapPieces_succ {pre post : List Vma} {r : Vma} {mem : List Bool}
    (range : Range addr length) (some : length ≠ 0)
    (found : findVmaRegion vs addr = Option.some (pre, r, post)) (inside : addr < r.stop)
    (user : r.stop ≤ userStackTop) (fuel : Nat) :
    munmapPieces (fuel + 1) vs addr length mem =
      let size := min length (r.stop - addr)
      let freed := freeVmaRegion vs (withoutPart pre r post addr) r addr size mem
      (addr, size) :: munmapPieces fuel freed.1 (addr + size) (length - size) freed.2 := by
  obtain ⟨size, next, left⟩ := size_eq range inside user
  rw [munmapPieces, if_neg some]
  simp only [found, size, next, left]
  rfl

/-- A page that `munmap` takes out of the regions is in a piece that it frees. -/
theorem munmapPieces_covers (fuel : Nat) (mem : List Bool)
    (space : Space vs) (range : Range addr length) (small : SmallPieces vs addr length)
    (old : v * pageSize ∈ mapped vs)
    (kept : ∀ piece ∈ munmapPieces fuel vs addr length mem, v ∉ piecePages piece) :
    v * pageSize ∈ mapped (munmapLoop fuel vs addr length mem).1 := by
  induction fuel generalizing vs addr length mem with
  | zero => exact old
  | succ fuel ih =>
    by_cases some : length = 0
    · simpa [munmapLoop, some] using old
    cases found : findVmaRegion vs addr with
    | none => simpa [munmapLoop, some, found] using old
    | some split =>
      obtain ⟨pre, r, post⟩ := split
      obtain ⟨rfl, low, inside⟩ := findVmaRegion_some range.aligned found
      have user := (space.user r (by simp)).2.2
      obtain ⟨positive, high, fits, whole, next⟩ := range_piece range some space low inside small
      rw [munmapPieces_succ range some found inside user] at kept
      rw [munmapLoop_succ range some found inside user]
      simp only [mem_cons, forall_eq_or_imp] at kept ⊢
      obtain ⟨outside, kept⟩ := kept
      rcases freed_cases space low positive high fits with freed | ⟨-, -, freed⟩
      · rw [freed] at kept ⊢
        refine ih _ (space_leftOver space low high range.aligned whole) next
          (small.within (within_leftOver pre post low high) (by omega) (by omega)) ?_ kept
        refine (mapped_leftOver space low high _).mpr ⟨old, fun freed => ?_⟩
        exact outside (mem_piecePages range.aligned whole freed.1 freed.2)
      · rw [freed] at kept ⊢
        exact ih _ space next (small.within (Within.refl _) (by omega) (by omega)) old kept

end Unmapping

/-! ## Steps -/

section Steps

variable {m : Memory} {root : Nat} {vs : List Vma} {addr p rsp vpage : Nat} {child parent : Nat}
  {rw : Bool}

theorem setVmas_cases {other : Nat} {new : Option (List Vma)}
    (known : (m.setVmas root new).vmas other = some vs) :
    (other = root ∧ new = some vs) ∨ (other ≠ root ∧ m.vmas other = some vs) := by
  by_cases same : other = root
  · subst same
    exact .inl ⟨rfl, by simpa [setVmas] using known⟩
  · exact .inr ⟨same, by simpa [setVmas, same] using known⟩

/-- The regions of a process change, and still hold its leaves. -/
theorem Inv.setVmas (core : Core m) (new : List Vma) (spaceNew : Space new)
    (here : ∀ e ∈ m.ptes, e.root = root → e.vpage * pageSize ∈ mapped new)
    (others : ∀ e ∈ m.ptes, e.root ≠ root →
      ∃ vs, m.vmas e.root = some vs ∧ e.vpage * pageSize ∈ mapped vs)
    (space : ∀ other vs, m.vmas other = some vs → Space vs) :
    Inv (m.setVmas root (some new)) := by
  refine ⟨⟨core.nodup, core.user, core.bound, core.accounted⟩, fun e member => ?_,
    fun other ws known => ?_⟩
  · by_cases same : e.root = root
    · exact ⟨new, by simp [Memory.setVmas, same], here e member same⟩
    · obtain ⟨ws, known, inside⟩ := others e member same
      exact ⟨ws, by simpa [Memory.setVmas, same] using known, inside⟩
  · rcases setVmas_cases known with ⟨-, new⟩ | ⟨-, old⟩
    · cases new
      exact spaceNew
    · exact space other ws old

theorem munmap_inv {length : Nat} (mem : List Bool) (inv : Inv m) (live : m.vmas root = some vs)
    (safe : SafeMunmap vs addr length) : Inv (m.munmap root vs addr length mem) := by
  have space := inv.space root vs live
  have spaceNew : Space (doMunmap vs addr length mem).2.1 := doMunmap_space space safe
  unfold munmap
  split
  · exact inv
  case h_2 vs' rest accepted =>
    rw [accepted] at spaceNew
    have unmaps := foldl_pieces_unmaps inv.toCore root
      (munmapPieces (unmapLength length) vs addr (unmapLength length) mem)
    refine Inv.setVmas unmaps.core vs' spaceNew (fun e member same => ?_) (fun e member other => ?_)
      fun other ws known => inv.space other ws (unmaps.vmas ▸ known)
    · obtain ⟨old, kept⟩ := (unmaps.leaves e).mp member
      obtain ⟨ws, known, inside⟩ := inv.covered e old
      rw [same, live] at known
      cases known
      rcases doMunmap_cases mem space addr length with done | ⟨-, done⟩ | ⟨range, done⟩
      · cases done.symm.trans accepted
      · cases done.symm.trans accepted
        exact inside
      · have left := munmapPieces_covers (unmapLength length) mem space range
          (safe range.aligned range.user) inside fun piece freed hit => kept ⟨same, piece, freed, hit⟩
        have loop : (munmapLoop _ _ _ _ _).1 = vs' := congrArg (·.2.1) (done.symm.trans accepted)
        rwa [loop] at left
    · obtain ⟨old, -⟩ := (unmaps.leaves e).mp member
      obtain ⟨ws, known, inside⟩ := inv.covered e old
      exact ⟨ws, by rw [unmaps.vmas]; exact known, inside⟩

theorem exit_inv (inv : Inv m) (live : m.vmas root = some vs)
    (safe : SafeLabel m (.exit root)) : Inv (m.exit root vs) := by
  have space := inv.space root vs live
  have unmaps := foldl_pieces_unmaps inv.toCore root
    (vs.map fun r => (r.start, (r.stop - r.start) % 2 ^ 32))
  rw [foldl_map] at unmaps
  unfold exit
  simp only
  generalize freed : vs.foldl (fun m r =>
    freeVmaPages root m r.start ((r.stop - r.start) % 2 ^ 32)) m = m' at unmaps ⊢
  -- no leaf of the process is left for `free_pml4_64` to drop
  have gone : ∀ e ∈ m'.ptes, e.root ≠ root := by
    intro e member same
    obtain ⟨old, kept⟩ := (unmaps.leaves e).mp member
    obtain ⟨ws, known, r, inList, low, high⟩ := inv.covered e old
    rw [same, live] at known
    cases known
    have reach := safe vs live r inList e old same low high
    have user := space.user r inList
    have whole : (r.stop - r.start) % 2 ^ 32 % pageSize = 0 := by
      unfold UserPages pageSize at *
      omega
    exact kept ⟨same, _, mem_map_of_mem inList, mem_piecePages user.1 whole low reach⟩
  have same : m'.ptes.filter (·.root ≠ root) = m'.ptes :=
    filter_eq_self.mpr fun e member => by simpa using gone e member
  have core := unmaps.core
  rw [same]
  refine ⟨⟨core.nodup, core.user, core.bound, core.accounted⟩, fun e member => ?_,
    fun other ws known => ?_⟩
  · obtain ⟨old, -⟩ := (unmaps.leaves e).mp member
    obtain ⟨ws, known, inside⟩ := inv.covered e old
    refine ⟨ws, ?_, inside⟩
    simpa [setVmas, gone e member, unmaps.vmas] using known
  · rcases setVmas_cases known with ⟨-, absent⟩ | ⟨-, old⟩
    · cases absent
    · exact inv.space other ws (unmaps.vmas ▸ old)

/-- `page_ref_get` for a list of leaves. -/
theorem foldl_pageRefGet (leaves : List Pte) (m : Memory) :
    leaves.foldl (fun m e => m.pageRefGet e.phys) m =
      { m with page := fun p =>
          if p < m.nrPages then ⟨(m.page p).count + leaves.countP (·.phys == p), (m.page p).use⟩
          else m.page p } := by
  induction leaves generalizing m with
  | nil => simp
  | cons e leaves ih =>
    rw [foldl_cons, ih, pageRefGet]
    split
    case isTrue outside =>
      congr 1
      funext p
      by_cases inside : p < m.nrPages
      · have other : e.phys ≠ p := by omega
        simp [other]
      · simp [inside]
    case isFalse known =>
      simp only [setPage]
      congr 1
      funext p
      by_cases inside : p < m.nrPages
      · by_cases same : p = e.phys
        · subst same
          simp only [inside, Function.update_self, countP_cons, beq_self_eq_true]
          push_cast
          congr 1
          omega
        · simp [same, Ne.symm same]
      · have other : p ≠ e.phys := by omega
        simp [inside, other]

/-- A fork that fails before the first leaf changes nothing. -/
theorem fork_failed {t : Nat} (early : ∀ e ∈ m.ptes, e.root = parent → t ≤ e.vpage / 512) :
    m.fork parent child vs (some t) = m := by
  have none : ∀ e ∈ m.ptes, reached parent (some t) e = false := by
    intro e member
    have := early e member
    simp [reached]
    exact this
  have copies : copyLeaves vs parent child (some t) m.ptes = [] := by
    rw [copyLeaves, filter_eq_nil_iff.mpr fun e member => by simp [none e member], map_nil]
  have same : protectLeaves vs parent (some t) m.ptes = m.ptes := by
    conv_rhs => rw [← map_id m.ptes]
    exact map_congr_left fun e member => by simp [none e member]
  simp [fork, copies, same]

theorem fork_inv (inv : Inv m) (live : m.vmas parent = some vs)
    (unused : m.vmas child = none) : Inv (m.fork parent child vs none) := by
  have core := inv.toCore
  obtain ⟨f, protect, kept, -⟩ := protectLeaves_eq_map vs parent none m.ptes
  have copyOf : ∀ e ∈ copyLeaves vs parent child none m.ptes,
      e.us = true ∧ e.root = child ∧ ∃ g ∈ m.ptes, g.root = parent ∧ g.vpage = e.vpage := by
    intro e member
    obtain ⟨g, inTable, isParent, rfl⟩ := mem_copyLeaves.mp member
    have key := cowLeaf_key vs g
    rw [Prod.mk.injEq] at key
    exact ⟨(cowLeaf_us vs g).trans (core.user g inTable), rfl, g, inTable,
      by simpa [reached] using isParent, key.2.symm⟩
  have users := filter_eq_self.mpr fun e member => (copyOf e member).1
  have noChild : ∀ e ∈ m.ptes, e.root ≠ child := by
    rintro e member rfl
    obtain ⟨ws, known, -⟩ := inv.covered e member
    rw [unused] at known
    cases known
  have counts : ∀ p, mapCount (m.ptes.map f ++ copyLeaves vs parent child none m.ptes) p =
      mapCount m.ptes p + (copyLeaves vs parent child none m.ptes).countP (·.phys == p) := by
    intro p
    rw [mapCount, countP_append, countP_map]
    congr 1
    · refine countP_congr fun e _ => ?_
      simp [kept]
    · refine countP_congr fun e member => ?_
      simp [(copyOf e member).1]
  have more : ∀ p, 0 < (copyLeaves vs parent child none m.ptes).countP (·.phys == p) →
      0 < mapCount m.ptes p := by
    intro p some
    obtain ⟨e, member, phys⟩ := countP_pos_iff.mp some
    obtain ⟨g, inTable, -, rfl⟩ := mem_copyLeaves.mp member
    have phys : g.phys = p := by simpa [cowLeaf_phys] using phys
    exact phys ▸ core.mapCount_pos inTable
  unfold fork
  simp only [users, foldl_pageRefGet, Option.isSome_none, Bool.false_eq_true, if_false, protect,
    setVmas]
  refine ⟨⟨?_, ?_, ?_, ?_⟩, ?_, ?_⟩
  · rw [← protect]
    exact nodup_fork core.nodup noChild
  · intro e member
    rw [mem_append, mem_map] at member
    rcases member with ⟨g, inTable, rfl⟩ | member
    · rw [(kept g).2.2]
      exact core.user g inTable
    · exact (copyOf e member).1
  · intro p use
    by_contra outside
    simp only [outside] at use
    exact outside (core.bound p use)
  · intro p
    have old := core.accounted p
    have more := more p
    simp only [counts]
    by_cases inside : p < m.nrPages
    · simp only [inside, if_true]
      refine ⟨fun use => ?_, ?_⟩
      · rw [old.1 use]
        push_cast
        rfl
      · rw [old.2]
        omega
    · have notUser : (m.page p).use ≠ .user := fun use => inside (core.bound p use)
      have zero := core.mapCount_zero notUser
      simp only [inside, if_false, notUser, false_imp_iff, true_and, false_iff]
      omega
  · intro e member
    rw [mem_append, mem_map] at member
    rcases member with ⟨g, inTable, rfl⟩ | member
    · obtain ⟨ws, known, inside⟩ := inv.covered g inTable
      have key := (kept g).1
      rw [Pte.key, Pte.key, Prod.mk.injEq] at key
      rw [key.1, key.2]
      exact ⟨ws, by simpa [noChild g inTable] using known, inside⟩
    · obtain ⟨-, rfl, g, inTable, isParent, vpage⟩ := copyOf e member
      obtain ⟨ws, known, inside⟩ := inv.covered g inTable
      rw [isParent, live] at known
      cases known
      exact ⟨vs, by simp, vpage ▸ inside⟩
  · intro other ws known
    rcases setVmas_cases known with ⟨-, new⟩ | ⟨-, old⟩
    · cases new
      exact inv.space parent vs live
    · exact inv.space other ws old

theorem available_iff : m.available p = true ↔ (m.page p).use = .free ∧ p < m.nrPages := by
  simp [available]

/-- A new page is mapped where there was no leaf. -/
theorem mapNewPage_core (core : Core m) (fresh : m.available p = true)
    (absent : ∀ e ∈ m.ptes, ¬(e.root = root ∧ e.vpage = vpage)) :
    Core (m.mapNewPage root vpage p rw) := by
  obtain ⟨free, inside⟩ := available_iff.mp fresh
  have same : unmapUserPage m.ptes root vpage = m.ptes :=
    filter_eq_self.mpr fun e member => by
      simpa [Pte.key, -not_and, not_and_or] using absent e member
  unfold mapNewPage mapUserPage getFreePage
  rw [same]
  refine ⟨?_, ?_, ?_, ?_⟩
  · rw [map_cons, nodup_cons]
    refine ⟨fun member => ?_, core.nodup⟩
    obtain ⟨e, inTable, key⟩ := mem_map.mp member
    exact absent e inTable (by simpa [Pte.key] using key)
  · intro e member
    rcases mem_cons.mp member with rfl | member
    · rfl
    · exact core.user e member
  · intro q use
    by_cases isNew : q = p
    · exact isNew ▸ inside
    · exact core.bound q (by simpa [setPage_page_other _ isNew] using use)
  · intro q
    rw [mapCount_cons rfl]
    by_cases isNew : q = p
    · subst isNew
      have zero := core.mapCount_zero (by rw [free]; decide)
      simp [zero]
    · have old := core.accounted q
      rw [setPage_page_other _ isNew, if_neg (Ne.symm isNew)]
      exact old

/-- A copy of a page that others map too: the leaf is freed, and mapped anew. -/
theorem copyOnWrite_eq {e : Pte} {r : Vma} (core : Core m)
    (found : userLeaf m.ptes e.root e.vpage = some e) (copied : copiedRegion r = true)
    (fresh : m.available p = true) (shared : 1 < (m.page e.phys).count) :
    m.copyOnWrite e r (some p) =
      (freeVmaPage e.root m e.vpage).mapNewPage e.root e.vpage p true := by
  have member := (userLeaf_some found).1
  have use := core.use_phys member
  have known := core.bound e.phys use
  have other : e.phys ≠ p := by
    rintro rfl
    rw [(available_iff.mp fresh).1] at use
    cases use
  have twice : unmapUserPage (unmapUserPage m.ptes e.root e.vpage) e.root e.vpage =
      unmapUserPage m.ptes e.root e.vpage := by
    simp [unmapUserPage]
  rw [freeVmaPage_some found use, if_pos shared]
  simp only [copyOnWrite, copied, mapNewPage, getFreePage, setPage, pageRefPut, mapUserPage, twice]
  have positive : 0 < (m.page e.phys).count := by omega
  simp only [Nat.not_le.mpr known, if_false, Function.update_of_ne other, positive, if_true, use]
  rw [Function.update_comm other]

/-- A fault takes no address out of the regions, and puts its own page into one. -/
theorem mapped_pageFault (space : Space vs) :
    (∀ x ∈ mapped vs, x ∈ mapped (pageFault vs addr rsp)) ∧
      ∀ r ∈ faultRegion vs addr rsp, pageMask addr ∈ mapped (pageFault vs addr rsp) := by
  unfold pageFault faultRegion
  cases found : findVmaRegion vs addr with
  | some split =>
    obtain ⟨pre, r, post⟩ := split
    rw [findVmaRegion] at found
    split at found
    · cases found
    · obtain ⟨rfl, inside⟩ := splitAtRegion_some found
      exact ⟨fun _ => id, fun _ _ => ⟨r, by simp, inside⟩⟩
  | none =>
    unfold growStack
    by_cases stackLike : sub64 rsp 32 ≤ addr ∧ addr < userStackTop
    · simp only [stackLike, and_self, if_true]
      cases top : findVmaRegion vs (userStackTop - 1) with
      | none => exact ⟨fun _ => id, fun r member => by simp at member⟩
      | some split =>
        obtain ⟨pre, stack, post⟩ := split
        obtain ⟨rfl, low, high⟩ := splitAtRegion_some top
        have page : pageMask addr ≤ pageMask (userStackTop - 1) :=
          Nat.mul_le_mul_right _ (Nat.div_le_div_right (by omega))
        -- the stack does not hold the address yet, so it begins above it
        have below : pageMask addr ≤ stack.start := by
          by_contra above
          rw [findVmaRegion] at found
          split at found
          case isTrue zero => simp [zero, pageMask] at above
          case isFalse =>
            exact splitAtRegion_none found ⟨stack, by simp, by omega, by omega⟩
        simp only [mapped, mem_cover_append, mem_cover_cons]
        refine ⟨fun x covered => ?_, fun _ _ => .inr (.inl ⟨le_rfl, by omega⟩)⟩
        rcases covered with h | h | h
        · exact .inl h
        · exact .inr (.inl ⟨below.trans h.1, h.2⟩)
        · exact .inr (.inr h)
    · simp only [stackLike]
      exact ⟨fun _ => id, fun r member => by simp at member⟩

theorem mapNewPage_inv (inv : Inv m) (fresh : m.available p = true)
    (absent : ∀ e ∈ m.ptes, ¬(e.root = root ∧ e.vpage = vpage)) (live : m.vmas root = some vs)
    (inside : vpage * pageSize ∈ mapped vs) : Inv (m.mapNewPage root vpage p rw) := by
  refine ⟨mapNewPage_core inv.toCore fresh absent, fun e member => ?_, inv.space⟩
  rw [mapNewPage, mapUserPage, mem_cons] at member
  rcases member with rfl | member
  · exact ⟨vs, live, inside⟩
  · exact inv.covered e (mem_unmapUserPage.mp member).1

theorem pageFault_inv (inv : Inv m) (live : m.vmas root = some vs)
    (safe : SafeFault vs addr rsp) : Inv (m.setVmas root (some (pageFault vs addr rsp))) := by
  have space := inv.space root vs live
  refine Inv.setVmas inv.toCore _ (pageFault_space space safe) (fun e member same => ?_)
    (fun e member _ => inv.covered e member) inv.space
  obtain ⟨ws, known, inside⟩ := inv.covered e member
  rw [same, live] at known
  cases known
  exact (mapped_pageFault space).1 _ inside

theorem userLeaf_none (core : Core m) (none : userLeaf m.ptes root vpage = none) :
    ∀ e ∈ m.ptes, ¬(e.root = root ∧ e.vpage = vpage) := by
  rintro e member ⟨rfl, rfl⟩
  rw [userLeaf_of_mem core.nodup member (core.user e member)] at none
  cases none

theorem access_inv {m' : Memory} {write tables : Bool} {page : Option Nat}
    (inv : Inv m) (live : m.vmas root = some vs) (fresh : page.all m.available = true)
    (safe : SafeLabel m (.access root addr rsp write page tables))
    (taken : m.access root vs addr rsp write page tables = some m') : Inv m' := by
  obtain ⟨safeFault, shared, tablesThere⟩ := safe vs live
  unfold access at taken
  simp only at taken
  split at taken
  case h_1 pre r post e found leaf =>
    split at taken
    case isFalse => cases taken; exact inv
    case isTrue violation =>
      cases taken
      rw [Bool.and_eq_true, Bool.not_eq_true'] at violation
      by_cases copied : copiedRegion r = true
      · cases page with
        | none => simpa [copyOnWrite, copied] using inv
        | some p =>
          have several := shared violation.1 rfl e leaf _ found violation.2 copied
          obtain ⟨member, key, -⟩ := userLeaf_some leaf
          obtain ⟨rfl, vpage⟩ : e.root = root ∧ e.vpage = addr / pageSize := by
            simpa [Pte.key] using key
          rw [← vpage] at leaf
          rw [copyOnWrite_eq inv.toCore leaf copied fresh several]
          have freed := freeVmaPage_unmaps inv.toCore e.root e.vpage
          have use := inv.use_phys member
          have other : p ≠ e.phys := by
            rintro rfl
            rw [(available_iff.mp fresh).1] at use
            cases use
          have invFreed : Inv (freeVmaPage e.root m e.vpage) := by
            refine ⟨freed.core, fun f inside => ?_, fun other ws known => ?_⟩
            · rw [freed.vmas]
              exact inv.covered f ((freed.leaves f).mp inside).1
            · rw [freed.vmas] at known
              exact inv.space other ws known
          obtain ⟨ws, known, inside⟩ := inv.covered e member
          rw [live] at known
          cases known
          refine mapNewPage_inv invFreed ?_ (fun f member => ?_) (freed.vmas ▸ live) inside
          · rw [freeVmaPage_some leaf use, available_iff, setPage_page_other _ other]
            exact available_iff.mp fresh
          · exact ((freed.leaves f).mp member).2
      · simpa [copyOnWrite, copied] using inv
  case h_2 notBoth =>
    split at taken
    · cases taken; exact inv
    case h_2 r region =>
      split at taken
      case isFalse => cases taken
      case isTrue =>
        cases taken
        have grown := pageFault_inv inv live safeFault
        unfold pageNotPresent
        split
        · exact grown
        case isFalse accessible =>
          split
          · exact grown
          · exact grown
          case h_3 p leaf =>
            have tables : tables = true := by
              by_contra missing
              exact tablesThere rfl (by simpa using missing) r region accessible leaf
            rw [if_pos tables]
            have inside := (mapped_pageFault (inv.space root vs live)).2 r region
            refine mapNewPage_inv grown fresh (userLeaf_none grown.toCore leaf) ?_ inside
            simp [setVmas]

/-- What the kernel does with pages of its own. -/
theorem setPage_inv {page : Page} (inv : Inv m) (before : (m.page p).use ≠ .user)
    (after : page.use ≠ .user) : Inv (m.setPage p page) := by
  have same : ∀ q, ((m.setPage p page).page q).use = .user →
      (m.page q).use = .user ∧ (m.setPage p page).page q = m.page q := by
    intro q use
    by_cases here : q = p
    · rw [here, setPage_page_same] at use
      exact absurd use after
    · rw [setPage_page_other _ here] at use ⊢
      exact ⟨use, rfl⟩
  refine ⟨⟨inv.nodup, inv.user, fun q use => inv.bound q (same q use).1, fun q => ⟨fun use => ?_, ?_⟩⟩,
    inv.covered, inv.space⟩
  · rw [(same q use).2]
    exact (inv.accounted q).1 (same q use).1
  · refine ⟨fun use => (inv.accounted q).2.mp (same q use).1, fun some => ?_⟩
    have use := (inv.accounted q).2.mpr some
    have other : q ≠ p := by
      rintro rfl
      exact before use
    rwa [setPage_page_other _ other]

end Steps

theorem step_inv (m : Memory) (a : Label) (m' : Memory) (inv : Inv m) (safe : SafeLabel m a)
    (taken : step m a = some m') : Inv m' := by
  cases a with
  | access root addr rsp write page tables =>
    simp only [step, Option.ite_none_right_eq_some, Option.bind_eq_some_iff] at taken
    obtain ⟨fresh, vs, live, taken⟩ := taken
    exact access_inv inv live fresh safe taken
  | fork parent child stop =>
    simp only [step, Option.ite_none_left_eq_some, Option.map_eq_some_iff] at taken
    obtain ⟨unused, vs, live, rfl⟩ := taken
    cases stop with
    | none => exact fork_inv inv live (by simpa using unused)
    | some t => exact (fork_failed (safe t rfl)).symm ▸ inv
  | munmap root addr length mem =>
    simp only [step, Option.map_eq_some_iff] at taken
    obtain ⟨vs, live, rfl⟩ := taken
    exact munmap_inv mem inv live (safe vs live)
  | exit root =>
    simp only [step, Option.map_eq_some_iff] at taken
    obtain ⟨vs, live, rfl⟩ := taken
    exact exit_inv inv live safe
  | kernelTakes p =>
    simp only [step, when_eq_some] at taken
    obtain ⟨fresh, rfl⟩ := taken
    have free := (available_iff.mp fresh).1
    exact setPage_inv inv (by rw [free]; decide) (by decide)
  | kernelGives p =>
    simp only [step, when_eq_some] at taken
    obtain ⟨kernel, rfl⟩ := taken
    refine setPage_inv inv (by rw [kernel]; decide) ?_
    simp only [kernel]
    split <;> decide

/-! ## Returning pages -/

section Returned

variable {m m' : Memory} {p : Nat} {root : Nat}

end Returned

/-! ## Every run -/

instance (m : Memory) (root : Nat) (vs : List Vma) (addr : Nat) :
    Decidable (SharedCopy m root vs addr) := by
  unfold SharedCopy
  infer_instance

instance (m : Memory) (root : Nat) (vs : List Vma) (addr rsp : Nat) :
    Decidable (MapsNothing m root vs addr rsp) := by
  unfold MapsNothing
  infer_instance

instance (m : Memory) (a : Label) : Decidable (SafeLabel m a) := by
  cases a <;> dsimp only [SafeLabel, SafeMunmap] <;> infer_instance

end Argentum.Mm.CowAccounting
