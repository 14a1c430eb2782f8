/-
# Mm.ForkPages — what two processes read after a fork

Two page tables, the pages they map, and what a page that is not there yet will be filled from: zeros,
a block of a file (through the page cache when the region is read-only or shared), or a page of a
shared memory segment. `fork` copies the table of the parent; `access` is one read or write of a
process with the fault that it may take.

A fault gets its page as an argument, `none` when it does not get the page or the tables for it.
-/
import Argentum.Mm.PageTable

namespace Argentum.Mm

open Function

/-! ## Memory -/

structure World where
  ptes : List Pte
  vmas : Nat → List Vma
  /-- `page_table[p].data`. -/
  data : Nat → Nat → UInt8
  free : Nat → Bool
  /-- `page_hash_table`: the page that holds a page of a file. -/
  hash : Nat → Nat → Option Nat
  /-- The `shm_pages` of every segment. -/
  shmPages : Nat → Nat → Option Nat
  /-- What `bread_page` reads. -/
  disk : Nat → Nat → Nat → UInt8

/-- `file_offset` in `page_not_present`. -/
def fileOffset (r : Vma) (addr : Nat) : Nat :=
  pageMask (add64 (sub64 (pageMask addr) r.start) r.offset.toNat)

/-- A file region whose pages come from the page cache. -/
def cachedRegion (r : Vma) : Bool := r.prot &&& protWrite == 0 || r.flags &&& mapShared != 0

/-- The index in `shm_map_page`. -/
def segmentIndex (r : Vma) (addr : Nat) : Nat := sub64 addr r.start / pageSize

namespace World

variable (w : World) (root addr rsp : Nat) (store : Option UInt8) (page : Option Nat)

/-- `map_page`: an address that is mapped keeps its page. -/
def mapPage (root vpage : Nat) (given : Option Nat) (prot : Nat) (page : Option Nat) :
    Option (World × Nat) :=
  match userLeaf w.ptes root vpage, given with
  | some e, none => some (w, e.phys)
  | some _, some p => some (w, p)
  | none, some p =>
    some ({ w with ptes := mapUserPage w.ptes root vpage p (prot &&& protWrite != 0) }, p)
  | none, none =>
    page.map fun p =>
      ({ w with ptes := mapUserPage w.ptes root vpage p (prot &&& protWrite != 0)
                free := update w.free p false }, p)

def fill (p : Nat) (bytes : Nat → UInt8) : World :=
  { w with data := update w.data p bytes }

def breadPage (p inode offset : Nat) (r : Vma) : World :=
  let w := w.fill p (w.disk inode offset)
  if cachedRegion r then
    { w with hash := update w.hash inode (update (w.hash inode) offset (some p)) }
  else w

def shmMapPage (root object : Nat) (r : Vma) (addr : Nat) (page : Option Nat) : World :=
  let index := segmentIndex r addr
  match w.shmPages object index with
  | none =>
    match w.mapPage root (addr / pageSize) none r.prot page with
    | none => w
    | some (w, p) =>
      { w with shmPages := update w.shmPages object (update (w.shmPages object) index (some p)) }
  | some p => ((w.mapPage root (addr / pageSize) (some p) r.prot page).map (·.1)).getD w

/-- The part of `page_not_present` for a shared memory segment. -/
def mapSegment (root : Nat) (r : Vma) (addr : Nat) (page : Option Nat) : World :=
  match r.sType, r.object with
  | .shm, some object => w.shmMapPage root object r addr page
  | _, _ => w

def mapFile (root inode : Nat) (r : Vma) (addr : Nat) (page : Option Nat) : Option (World × Nat) :=
  let offset := fileOffset r addr
  match (if cachedRegion r then w.hash inode offset else none) with
  | some p => w.mapPage root (addr / pageSize) (some p) r.prot page
  | none =>
    (w.mapPage root (addr / pageSize) none r.prot page).map fun (w, p) =>
      (w.breadPage p inode offset r, p)

/-- `page_not_present` in the region `r`. -/
def pageNotPresent (root : Nat) (r : Vma) (addr : Nat) (page : Option Nat) : World :=
  if r.prot = 0 then w
  else match r.inode with
    | some inode =>
      match w.mapFile root inode r addr page with
      | none => w
      | some (w, p) => if r.flags &&& zeroPage ≠ 0 then w.fill p fun _ => 0 else w
    | none =>
      let w := w.mapSegment root r addr page
      if r.flags &&& zeroPage ≠ 0 then
        match w.mapPage root (addr / pageSize) none r.prot page with
        | none => w
        | some (w, p) => w.fill p fun _ => 0
      else w

/-- `page_protection_violation` on the leaf `e`. -/
def copyOnWrite (e : Pte) (r : Vma) (page : Option Nat) : World :=
  if r.prot &&& protWrite = 0 ∨ r.flags &&& mapShared ≠ 0 then w
  else match page with
    | none => w
    | some p =>
      { w.fill p (w.data e.phys) with
        ptes := mapUserPage w.ptes e.root e.vpage p true
        free := update w.free p false }

/-- `do_page_fault`, for a write to a read-only leaf or an access where there is no leaf. -/
def fault : World :=
  match findVmaRegion (w.vmas root) addr with
  | some (_, r, _) =>
    match userLeaf w.ptes root (addr / pageSize) with
    | some e => w.copyOnWrite e r page
    | none => w.pageNotPresent root r addr page
  | none =>
    if sub64 rsp 32 ≤ addr ∧ addr < userStackTop then
      match findVmaRegion (w.vmas root) (userStackTop - 1) with
      | some (_, stack, _) =>
        let w := { w with vmas := update w.vmas root (growStack (w.vmas root) addr rsp) }
        w.pageNotPresent root { stack with start := pageMask addr } addr page
      | none => w
    else w

/-! ## Fork -/

/-- The test of `clone_pages` for a page of a `MAP_SHARED` region. -/
def sharedPage (vs : List Vma) (vpage : Nat) : Bool :=
  (splitAtRegion (vpage * pageSize) vs).any fun found => found.2.1.flags &&& mapShared != 0

/-- `clone_pages`: the leaves of shared regions are made writable in both tables. -/
def clonePages (vs : List Vma) (parent child : Nat) (ptes : List Pte) : List Pte :=
  (ptes.filter fun e => e.root = child && e.us && sharedPage vs e.vpage).foldr
    (fun e ptes => mapUserPage (mapUserPage ptes child e.vpage e.phys true) parent e.vpage e.phys true)
    ptes

/-- `create_pml4_64` that finds all its pages, the copy of the regions, and `clone_pages`. -/
def fork (parent child : Nat) : World :=
  let vs := w.vmas parent
  let ptes := protectLeaves vs parent none w.ptes ++ copyLeaves vs parent child none w.ptes
  { w with ptes := clonePages vs parent child ptes
           vmas := update w.vmas child vs }

/-! ## Accesses -/

/-- The fault that an access takes, if the leaf does not allow it. -/
def settle : World :=
  if (userLeaf w.ptes root (addr / pageSize)).any fun e => store.isNone || e.rw then w
  else w.fault root addr rsp page

/-- The access itself, and the byte that it wrote. Where the leaf still does not allow it, the process
has got a signal. -/
def perform (root addr : Nat) (store : Option UInt8) : World × Option UInt8 :=
  match store, userLeaf w.ptes root (addr / pageSize) with
  | some b, some e =>
    if e.rw then (w.fill e.phys (update (w.data e.phys) (addr % pageSize) b), some b)
    else (w, none)
  | _, _ => (w, none)

/-- A read, or a write of a byte. -/
def access : World × Option UInt8 :=
  (w.settle root addr rsp store page).perform root addr store

end World

/-! ## What a process sees -/

/-- Where the content of an address is. -/
inductive Storage
  | page (p : Nat)
  /-- A page of a file that is not in the page cache, but will be. -/
  | uncached (inode offset : Nat)
  /-- A page of a file that is read for this address alone. -/
  | copy (inode offset : Nat)
  | zero
  | segment (object index : Nat)
  | nothing
  deriving DecidableEq

def World.demand (w : World) (r : Vma) (addr : Nat) : Storage :=
  match r.inode with
  | some inode =>
    if cachedRegion r then
      match w.hash inode (fileOffset r addr) with
      | some p => .page p
      | none => .uncached inode (fileOffset r addr)
    else .copy inode (fileOffset r addr)
  | none =>
    match r.sType, r.object with
    | .shm, some object =>
      match w.shmPages object (segmentIndex r addr) with
      | some p => .page p
      | none => .segment object (segmentIndex r addr)
    | _, _ => if r.flags &&& zeroPage ≠ 0 then .zero else .nothing

def World.storage (w : World) (root addr : Nat) : Storage :=
  match findVmaRegion (w.vmas root) addr with
  | none => .nothing
  | some (_, r, _) =>
    match userLeaf w.ptes root (addr / pageSize) with
    | some e => .page e.phys
    | none => if r.prot = 0 then .nothing else w.demand r addr

def World.content (w : World) (byte : Nat) : Storage → Option UInt8
  | .page p => some (w.data p byte)
  | .uncached inode offset | .copy inode offset => some (w.disk inode offset byte)
  | .zero => some 0
  | .segment _ _ | .nothing => none

/-- What the process reads at `addr`. -/
def World.view (w : World) (root addr : Nat) : Option UInt8 :=
  w.content (addr % pageSize) (w.storage root addr)

end Argentum.Mm
