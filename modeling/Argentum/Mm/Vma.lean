/-
# Mm.Vma — the region list of an address space

`mm/mmap.c` keeps the regions of a process in one list, linked both ways, the head pointing back
at the tail. Addresses are 64 bits wide, but a length is a `__size_t` of 32 bits in `do_munmap`
and `sys_mprotect` and a signed `__ssize_t` in `free_vma_region`: the conversions are written out.

`kmalloc` may fail. A call carries the outcomes of its allocations as a list of booleans; when the
list is used up there is no memory left.
-/
import Argentum.Kernel.Errno
import Mathlib.Data.Nat.Bits
import Mathlib.Algebra.Group.Nat.Defs
import Mathlib.Algebra.Group.Int.Defs

namespace Argentum.Mm

/-! ## Numbers -/

def pageSize : Nat := 4096

def userStackTop : Nat := 0x0000800000000000

def mmapStart : Nat := 0x0000400000000000

/-- `addr & PAGE_MASK`. -/
def pageMask (addr : Nat) : Nat := addr / pageSize * pageSize

def add64 (a b : Nat) : Nat := (a + b) % 2 ^ 64

def sub64 (a b : Nat) : Nat := (a + (2 ^ 64 - b % 2 ^ 64)) % 2 ^ 64

def sub32 (a b : Nat) : Nat := (a + (2 ^ 32 - b % 2 ^ 32)) % 2 ^ 32

/-- `PAGE_ALIGN` of an `addr_t`. -/
def pageAlign (addr : Nat) : Nat := pageMask (add64 addr (pageSize - 1))

/-- `PAGE_ALIGN` of a `__size_t`. -/
def pageAlign32 (length : Nat) : Nat := pageMask ((length + (pageSize - 1)) % 2 ^ 32)

/-- The conversion to `__ssize_t` and back to 64 bits: the sign is extended. -/
def ssize (length : Nat) : Nat :=
  let low := length % 2 ^ 32
  if low < 2 ^ 31 then low else low + (2 ^ 64 - 2 ^ 32)

/-! ## Regions -/

/-- The section a region belongs to, `P_TEXT` to `P_SHM`. -/
inductive Section
  | text
  | data
  | bss
  | heap
  | stack
  | mmap
  | shm
  deriving DecidableEq

/-- `struct vma`; `stop` is its `end`. -/
structure Vma where
  start : Nat
  stop : Nat
  prot : Nat
  flags : Nat
  offset : UInt32
  sType : Section
  inode : Option Nat
  oMode : Nat
  object : Option Nat
  deriving DecidableEq

def canBeMerged (a b : Vma) : Bool :=
  a.stop == b.start && a.prot == b.prot && a.flags == b.flags &&
    (if a.inode.isSome then b.offset.toNat == add64 a.offset.toNat (sub64 b.start a.start)
      else a.offset == b.offset) &&
    a.sType == b.sType && a.sType != .shm && a.inode == b.inode

variable (vs : List Vma) (addr length : Nat) (prot : Int) (mem : List Bool)

/-- The region that `v` is linked after, and the list once that region and `v` have been replaced.
A new head has the tail as its `prev`. -/
def place (v : Vma) : Option (Vma × (List Vma → List Vma → List Vma)) :=
  let pre := vs.takeWhile fun r => decide (r.start ≤ v.start)
  let post := vs.dropWhile fun r => decide (r.start ≤ v.start)
  match pre.getLast?, post.getLast? with
  | some a, _ => some (a, fun as bs => pre.dropLast ++ as ++ bs ++ post)
  | none, some a => some (a, fun as bs => bs ++ post.dropLast ++ as)
  | none, none => none

/-- `insert_vma_region` with `merge_vma_regions`, and `add_vma_region` for the empty list. A region
that reaches into the one before it cuts it; what is left behind the cut is inserted again. -/
def insertVmaRegion (vs : List Vma) (v : Vma) (mem : List Bool) : List Vma × List Bool :=
  match place vs v with
  | none => ([v], mem)
  | some (a, put) =>
    if ¬(a.start ≤ v.start ∧ v.start ≤ a.stop) then (put [a] [v], mem)
    else if v.start = a.stop ∧ canBeMerged a v then (put [{ a with stop := v.stop }] [], mem)
    else if v.start < a.stop then
      match mem with
      | [] => (put [a] [v], [])
      | false :: mem => (put [a] [v], mem)
      | true :: mem =>
        let rest := { a with start := v.stop, object := none }
        let cut := put (if a.start = v.start then [] else [{ a with stop := v.start }]) [v]
        if a.stop ≤ v.stop then (cut, mem) else insertVmaRegion cut rest mem
    else (put [a] [v], mem)
termination_by structural mem

/-- `free_vma_region` of `r`; `without` is the list when `r` is deleted or ends at `start`. -/
def freeVmaRegion (vs without : List Vma) (r : Vma) (start length : Nat) (mem : List Bool) :
    List Vma × List Bool :=
  let bound := add64 start (ssize length)
  if bound < r.stop then
    match mem with
    | true :: mem =>
      let tail :=
        { r with start := bound, offset := r.offset + .ofNat (sub64 bound r.start), object := none }
      insertVmaRegion without tail mem
    | mem => (vs, mem.tail)
  else (without, mem)

/-- The first region that holds `addr`, with what stands before and after it. -/
def splitAtRegion (addr : Nat) : List Vma → Option (List Vma × Vma × List Vma)
  | [] => none
  | r :: rest =>
    if r.start ≤ addr ∧ addr < r.stop then some ([], r, rest)
    else (splitAtRegion addr rest).map fun (pre, found, post) => (r :: pre, found, post)

def findVmaRegion (addr : Nat) : Option (List Vma × Vma × List Vma) :=
  if addr = 0 then none else splitAtRegion (pageMask addr) vs

/-- `expand_heap`: the first heap region that is followed by one above `new` now ends there. -/
def expandHeap (new : Nat) : List Vma → Option (List Vma)
  | r :: next :: rest =>
    if r.sType = .heap ∧ new < next.start then some ({ r with stop := new } :: next :: rest)
    else (expandHeap new (next :: rest)).map (r :: ·)
  | _ => none

def unmappedFrom (length : Nat) : Nat → List Vma → Nat
  | _, [] => 0
  | addr, r :: rest =>
    if r.start < mmapStart then unmappedFrom length addr rest
    else if length ≤ sub64 r.start addr then pageAlign addr
    else unmappedFrom length (pageAlign r.stop) rest

def getUnmappedVmaRegion (length : Nat) : Nat :=
  if length = 0 then 0 else unmappedFrom length mmapStart vs

/-! ## The calls -/

/-- The loop of `do_munmap`. It stops at the first address that is in no region, and goes on when
a region could not be split. -/
def munmapLoop : Nat → List Vma → Nat → Nat → List Bool → List Vma × List Bool
  | 0, vs, _, _, mem => (vs, mem)
  | fuel + 1, vs, addr, length, mem =>
    if length = 0 then (vs, mem)
    else match findVmaRegion vs addr with
      | none => (vs, mem)
      | some (pre, r, post) =>
        let size := if add64 addr length > r.stop then sub64 r.stop addr else length
        let without := if r.start = addr then pre ++ post else pre ++ { r with stop := addr } :: post
        let (vs, mem) := freeVmaRegion vs without r addr size mem
        munmapLoop fuel vs (add64 addr size) (sub32 length size) mem

/-- `do_munmap`; every round takes at least a byte of a region whose bounds are page aligned. -/
def doMunmap : Except Errno Unit × List Vma × List Bool :=
  if addr % pageSize ≠ 0 then (.error .einval, vs, mem)
  else
    let length := pageAlign32 (length % 2 ^ 32)
    if length > userStackTop ∨ add64 addr length > userStackTop then (.error .einval, vs, mem)
    else (.ok (), munmapLoop length vs addr length mem)

def protWrite : Nat := 2

def mapShared : Nat := 0x01

def mapPrivate : Nat := 0x02

def mapType : Nat := 0x0f

def mapFixed : Nat := 0x10

def zeroPage : Nat := 0x80000000

def oWronly : Nat := 1

def oRdwr : Nat := 2

/-- What `do_mmap` reads of the inode: its number, whether it is a regular file or a character
device, and the error its `mmap` operation returns, if it has one that fails. -/
structure File where
  inode : Nat
  mappable : Bool
  refuses : Option Errno
  deriving DecidableEq

structure MmapArgs where
  file : Option File
  start : Nat
  length : Nat
  prot : Nat
  flags : Nat
  offset : Nat
  sType : Section
  mode : Nat
  object : Option Nat
  deriving DecidableEq

variable (q : MmapArgs) (flags start : Nat)

/-- The checks on the file and the flags; the flags that the region gets. -/
def mmapFlags : Except Errno Nat :=
  match q.file with
  | some file =>
    if !file.mappable then .error .enodev
    else if q.mode = oWronly then .error .eacces
    else if q.flags &&& mapType = mapShared then
      if q.prot &&& protWrite ≠ 0 ∧ q.mode &&& (oWronly ||| oRdwr) = 0 then .error .eacces
      else .ok q.flags
    else if q.flags &&& mapType = mapPrivate then .ok q.flags
    else .error .einval
  | none =>
    if q.flags &&& mapType ≠ mapPrivate then .error .einval
    else if q.sType = .shm then .ok ((q.flags ||| zeroPage) ^^^ zeroPage)
    else .ok (q.flags ||| zeroPage)

def mmapAddress (flags : Nat) : Except Errno Nat :=
  if flags &&& mapFixed ≠ 0 then
    if q.start = 0 ∨ q.start % pageSize ≠ 0 then .error .einval else .ok q.start
  else
    let start := getUnmappedVmaRegion vs (pageAlign q.length)
    if start = 0 then .error .enomem else .ok start

/-- `do_mmap` once the arguments are accepted: unmap, ask the file, add. -/
def mmapAt (mem : List Bool) : Except Errno Nat × List Vma :=
  let length := pageAlign q.length
  match mem with
  | true :: mem =>
    let vma : Vma :=
      { start := start, stop := add64 start length, prot := q.prot % 2 ^ 8, flags := flags
        offset := .ofNat q.offset, sType := q.sType, inode := q.file.map File.inode
        oMode := q.mode, object := q.object }
    let (_, vs, mem) := doMunmap vs start length mem
    match q.file.bind File.refuses with
    | some e => (.error e, (freeVmaRegion vs vs vma start length mem).1)
    | none => (.ok start, (insertVmaRegion vs vma mem).1)
  | _ => (.error .enomem, vs)

def doMmap (mem : List Bool) : Except Errno Nat × List Vma :=
  if q.length > userStackTop then (.error .einval, vs)
  else if pageAlign q.length = 0 then (.ok q.start, vs)
  else if q.start ≥ userStackTop ∨ add64 q.start (pageAlign q.length) > userStackTop then
    (.error .einval, vs)
  else match mmapFlags q with
    | .error e => (.error e, vs)
    | .ok flags =>
      match mmapAddress vs q flags with
      | .error e => (.error e, vs)
      | .ok start => mmapAt vs q flags start mem

/-- `do_mprotect` of `r`, which stands between `pre` and `post`. -/
def doMprotect (pre : List Vma) (r : Vma) (post : List Vma) (addr length prot : Nat)
    (mem : List Bool) : Except Errno Unit × List Vma :=
  if r.start = addr ∧ r.stop = add64 addr length then
    (.ok (), pre ++ { r with prot := prot } :: post)
  else match mem with
    | true :: mem =>
      if r.start = addr then
        let new := { r with start := add64 addr length, offset := r.offset + .ofNat length }
        let head := { r with stop := add64 addr length, prot := prot }
        (.ok (), (insertVmaRegion (pre ++ head :: post) new mem).1)
      else
        let new := { r with stop := addr }
        let tail :=
          { r with start := addr, offset := r.offset + .ofNat (sub64 addr r.start), prot := prot }
        (.ok (), (insertVmaRegion (pre ++ tail :: post) new mem).1)
    | _ => (.error .enomem, pre ++ r :: post)

/-- The checks of `sys_mprotect`; `prot` is a C `int`. -/
def mprotectChecks : Except Errno (List Vma × Vma × List Vma) :=
  if addr % pageSize ≠ 0 then .error .einval
  else if prot > 7 then .error .einval
  else
    let length := pageAlign32 (length % 2 ^ 32)
    if add64 addr length < addr then .error .einval
    else match findVmaRegion vs addr with
      | none => .error .enomem
      | some (pre, r, post) =>
        if add64 addr length > r.stop then .error .enomem
        else if r.inode.isSome ∧ r.flags &&& mapShared ≠ 0 ∧ prot / 2 % 2 = 1 ∧
            r.oMode &&& (oWronly ||| oRdwr) = 0 then .error .eacces
        else .ok (pre, r, post)

def sysMprotect : Except Errno Unit × List Vma :=
  match mprotectChecks vs addr length prot with
  | .error e => (.error e, vs)
  | .ok (pre, r, post) =>
    doMprotect pre r post addr (pageAlign32 (length % 2 ^ 32)) (prot % 2 ^ 8).toNat mem

/-- The part of `struct proc` that the calls read. -/
structure Proc where
  vmas : List Vma
  brk : Nat
  brkLower : Nat
  deriving DecidableEq

def sysBrk (p : Proc) (brk : Nat) (mem : List Bool) : Except Errno Nat × Proc :=
  if brk = 0 ∨ brk < p.brkLower then (.ok p.brk, p)
  else
    let newbrk := pageAlign brk
    if newbrk = p.brk ∨ newbrk < p.brkLower then (.ok brk, p)
    else if brk < p.brk then
      let (_, vmas, _) := doMunmap p.vmas newbrk (sub64 p.brk newbrk) mem
      (.ok brk, { p with vmas := vmas, brk := brk })
    else match expandHeap newbrk p.vmas with
      | some vmas => (.ok brk, { p with vmas := vmas, brk := brk })
      | none => (.error .enomem, p)

/-- What `page_not_present` does to the region list at a fault outside all regions: the stack is
taken down to the page, if the address looks like one of the stack. -/
def growStack (cr2 rsp : Nat) : List Vma :=
  if sub64 rsp 32 ≤ cr2 ∧ cr2 < userStackTop then
    match findVmaRegion vs (userStackTop - 1) with
    | some (pre, r, post) => pre ++ { r with start := pageMask cr2 } :: post
    | none => vs
  else vs

/-- A page fault. In a region it brings in a page and leaves the list alone. -/
def pageFault (cr2 rsp : Nat) : List Vma :=
  match findVmaRegion vs cr2 with
  | some _ => vs
  | none => growStack vs cr2 rsp

/-! ## The machine -/

inductive Label
  | mmap (args : MmapArgs) (mem : List Bool)
  | munmap (addr length : Nat) (mem : List Bool)
  | mprotect (addr length : Nat) (prot : Int) (mem : List Bool)
  | brk (addr : Nat) (mem : List Bool)
  | fault (cr2 rsp : Nat)
  deriving DecidableEq

def stepTo (p : Proc) : Label → Proc
  | .mmap args mem => { p with vmas := (doMmap p.vmas args mem).2 }
  | .munmap addr length mem => { p with vmas := (doMunmap p.vmas addr length mem).2.1 }
  | .mprotect addr length prot mem => { p with vmas := (sysMprotect p.vmas addr length prot mem).2 }
  | .brk addr mem => (sysBrk p addr mem).2
  | .fault cr2 rsp => { p with vmas := pageFault p.vmas cr2 rsp }

def step (p : Proc) (a : Label) : Option Proc := some (stepTo p a)

end Argentum.Mm
