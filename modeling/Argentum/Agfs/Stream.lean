/-
# Agfs.Stream — the block map of an inode

A data stream maps file blocks to disk blocks by runs, in file order: twelve direct
runs, then runs in table blocks. The first table blocks form the run `indirect`; when
that run cannot grow, further ones are recorded one by one in the blocks of the run
`double_indirect`.

An array of runs is the list of the slots in use: `direct` has up to twelve, a table
block up to `arrayLen`. `addrs` lists the table blocks recorded in the double table in
slot order, and `tables` the contents of all table blocks. `max_direct_range` is kept in
blocks.

`taken` is not in the source. It counts the blocks that were taken for a run, to be
compared with its 16-bit `len`.
-/
import Argentum.Agfs.Balloc

namespace Argentum.Agfs

/-- A volume's geometry with its block size. Each group has a bitmap bit for every one of
its blocks. -/
structure Format extends Geometry where
  /-- `s_blocksize_bits`. -/
  bits : Nat
  group_bits : 2 ^ agShift ≤ blocksPerAg * (8 * 2 ^ bits)

namespace Format

variable (f : Format)

/-- `s_blocksize`. -/
def blockSize : Nat := 2 ^ f.bits

/-- Bits to a block. -/
def bpb : Nat := 8 * 2 ^ f.bits

/-- Runs to a table block. -/
def arrayLen : Nat := f.blockSize / 8

/-- Addresses to a block of the double table. -/
def darray : Nat := f.blockSize / 4

/-- `agfs_bitmap_test`. -/
def used (s : Space) (b : Nat) : Bool := s.test f.toGeometry f.bpb b

end Format

/-- A `struct agfs_block_run` of a stream, with the number of blocks taken for it. -/
structure Run extends BlockRun where
  taken : Nat
  deriving DecidableEq

namespace Run

/-- An unused slot. -/
def zero : Run := ⟨⟨0, 0, 0⟩, 0⟩

/-- A new run of `count` blocks. -/
def make (agShift first count : Nat) : Run :=
  { encodeRun agShift first with len := UInt16.ofNat count, taken := count }

variable (r : Run)

/-- The test that ends every walk: no blocks, or the superblock's block. -/
def isEmpty : Bool := r.len = 0 || (r.allocationGroup = 0 && r.start = 0)

def extend : Run := { r with len := r.len + 1, taken := r.taken + 1 }

/-- The first `keep` blocks. -/
def cut (keep : Nat) : Run := { r with len := UInt16.ofNat keep, taken := keep }

def base (agShift : Nat) : Nat := runAbs agShift r.toBlockRun

def blocks (agShift : Nat) : List Nat := List.range' (r.base agShift) r.len.toNat

end Run

/-- `AGFS_NUM_DIRECT_BLOCKS`. -/
def numDirectBlocks : Nat := 12

/-- `struct agfs_data_stream`. -/
structure Stream where
  direct : List Run
  maxDirectRange : Nat
  indirect : Run
  doubleIndirect : Run
  addrs : List Nat
  tables : List (List Run)

namespace Stream

/-- The stream of `agfs_ialloc`. -/
def empty : Stream := ⟨[], numDirectBlocks, .zero, .zero, [], []⟩

/-- Every disk block the stream holds: data, tables and double tables. -/
def blocks (agShift : Nat) (st : Stream) : List Nat :=
  st.direct.flatMap (·.blocks agShift) ++ st.indirect.blocks agShift ++
    st.doubleIndirect.blocks agShift ++ st.addrs ++
    st.tables.flatten.flatMap (·.blocks agShift)

end Stream

/-- `AGFS_DELALLOC_WINDOW`. -/
def delallocWindow : Nat := 256

/-! ## Looking a block up -/

/-- What a walk over an array of runs comes to. -/
inductive Walk where
  | hit (disk : Nat)
  /-- An unused slot, the runs before it covering so many blocks. -/
  | slot (k covered : Nat)
  | full (covered : Nat)
  deriving DecidableEq

/-- The walk over an array of `size` slots, from slot `k` on. -/
def walk (agShift size block : Nat) : List Run → Nat → Nat → Walk
  | [], k, covered => if k < size then .slot k covered else .full covered
  | r :: rest, k, covered =>
    if r.isEmpty then .slot k covered
    else if block < covered + r.len.toNat then .hit (r.base agShift + (block - covered))
    else walk agShift size block rest (k + 1) (covered + r.len.toNat)

/-- What the walk over the tables comes to. -/
inductive Seek where
  | hit (disk : Nat)
  | slot (t j covered : Nat)
  /-- The first table slot that has no block. -/
  | none (t : Nat)
  deriving DecidableEq

def seek (agShift size block : Nat) : List (List Run) → Nat → Nat → Seek
  | [], t, _ => .none t
  | runs :: rest, t, covered =>
    match walk agShift size block runs 0 covered with
    | .hit disk => .hit disk
    | .slot j covered => .slot t j covered
    | .full covered => seek agShift size block rest (t + 1) covered

section Bmap

variable (f : Format)

variable (st : Stream) (block : Nat)

/-- The file block as the tables count it, in 32 bits. -/
def tableOffset : Nat :=
  (block + 2 ^ 32 - st.maxDirectRange % 2 ^ 32) % 2 ^ 32

def seekTables : Seek :=
  seek f.agShift f.arrayLen (tableOffset st block) st.tables 0 0

def walkDirect : Walk :=
  walk f.agShift numDirectBlocks block st.direct 0 0

/-- `agfs_bmap` for reading: the disk block, or none. -/
def bmapRead : Option Nat :=
  match walkDirect f st block with
  | .hit disk => some disk
  | .slot _ _ => none
  | .full _ =>
    match seekTables f st block with
    | .hit disk => some disk
    | _ => none

/-! ## Growing a stream -/

/-- The allocator and the stream a call works on. -/
structure Work where
  space : Space
  stream : Stream

/-- `agfs_balloc_specific` of the block behind a run of `len` blocks. -/
def takeNext (s : Space) (r : Run) (len : Nat) : Option (Space × Nat) :=
  let next := r.base f.agShift + len
  match s.ballocSpecific f.toGeometry f.bpb next with
  | .ok s' => some (s', next)
  | .error _ => none

/-- The walk found slot `j` of table `t`: extend the run before it or begin a new one. -/
def fillSlot (w : Work) (t j : Nat) : Except Errno Nat × Work :=
  let runs := w.stream.tables.getD t []
  match runs[j - 1]?.bind fun r => if 0 < j then takeNext f w.space r r.len.toNat else none with
  | some (s, next) =>
    (.ok next, ⟨s, { w.stream with
      tables := w.stream.tables.modify t fun runs => runs.modify (j - 1) Run.extend }⟩)
  | none =>
    match w.space.balloc f.toGeometry f.bpb with
    | .error e => (.error e, w)
    | .ok (s, nb) =>
      (.ok nb, ⟨s, { w.stream with
        tables := w.stream.tables.modify t fun runs =>
          runs.take j ++ [Run.make f.agShift nb 1] }⟩)

/-- A table block recorded in the double table, which has room for it. -/
def addTable (w : Work) : Except Errno Unit × Work :=
  match w.space.balloc f.toGeometry f.bpb with
  | .error e => (.error e, w)
  | .ok (s, next) =>
    (.ok (), ⟨s, { w.stream with
      addrs := w.stream.addrs ++ [next], tables := w.stream.tables ++ [[]] }⟩)

/-- One more block for the double table, and then a table block recorded there. -/
def growDouble (w : Work) : Except Errno Unit × Work :=
  if w.stream.doubleIndirect.len = 0 then
    match w.space.balloc f.toGeometry f.bpb with
    | .error e => (.error e, w)
    | .ok (s, next) =>
      addTable f ⟨s, { w.stream with doubleIndirect := Run.make f.agShift next 1 }⟩
  else
    match takeNext f w.space w.stream.doubleIndirect w.stream.doubleIndirect.len.toNat with
    | some (s, _) =>
      addTable f ⟨s, { w.stream with doubleIndirect := w.stream.doubleIndirect.extend }⟩
    | none => (.error .enospc, w)

/-- The first table block, one more behind the last, or one in the double table. -/
def growTable (w : Work) (t : Nat) : Except Errno Unit × Work :=
  if w.stream.indirect.len = 0 then
    match w.space.balloc f.toGeometry f.bpb with
    | .error e => (.error e, w)
    | .ok (s, next) =>
      (.ok (), ⟨s, { w.stream with
        indirect := Run.make f.agShift next 1, tables := w.stream.tables ++ [[]] }⟩)
  else
    match if w.stream.doubleIndirect.len = 0 then
        takeNext f w.space w.stream.indirect w.stream.indirect.len.toNat else none with
    | some (s, _) =>
      (.ok (), ⟨s, { w.stream with
        indirect := w.stream.indirect.extend, tables := w.stream.tables ++ [[]] }⟩)
    | none =>
      let dslot := t - w.stream.indirect.len.toNat
      if w.stream.doubleIndirect.len.toNat * f.darray ≤ dslot then growDouble f w
      else addTable f w

/-- `agfs_indirect_bmap` for writing. It calls itself once it has grown the table, and then
finds the new table's first slot. -/
def indirectBmap (block : Nat) : Nat → Work → Except Errno Nat × Work
  | 0, w => (.error .eio, w)
  | fuel + 1, w =>
    match seekTables f w.stream block with
    | .hit disk => (.ok disk, w)
    | .slot t j covered =>
      if covered < tableOffset w.stream block then (.error .eio, w) else fillSlot f w t j
    | .none t =>
      match growTable f w t with
      | (.error e, w) => (.error e, w)
      | (.ok (), w) => indirectBmap block fuel w

/-- The allocation loop of `agfs_bmap`: `nrun` direct runs are in use, `lastLen` blocks in the
last, `covered` in all. A window that reaches `block` returns its own first block. -/
def growDirect (block : Nat) : Nat → Work → Nat → Nat → Nat → Except Errno Nat × Work
  | 0, w, _, _, _ => (.error .eio, w)
  | fuel + 1, w, nrun, lastLen, covered =>
    match if 0 < nrun ∧ lastLen ≠ 0 then
        w.stream.direct[nrun - 1]?.bind fun r => takeNext f w.space r lastLen else none with
    | some (s, nb) =>
      let w : Work := ⟨s, { w.stream with
        direct := w.stream.direct.modify (nrun - 1) Run.extend
        maxDirectRange := covered + 1 }⟩
      if block < covered + 1 then (.ok nb, w)
      else growDirect block fuel w nrun (lastLen + 1) (covered + 1)
    | none =>
      if numDirectBlocks ≤ nrun then indirectBmap f block 2 w
      else
        match w.space.ballocContig f.toGeometry f.bpb delallocWindow with
        | .error e => (.error e, w)
        | .ok (s, nb, wlen) =>
          let w : Work := ⟨s, { w.stream with
            direct := w.stream.direct.take nrun ++ [Run.make f.agShift nb wlen]
            maxDirectRange := covered + wlen }⟩
          if block < covered + wlen then (.ok nb, w)
          else growDirect block fuel w (nrun + 1) wlen (covered + wlen)

/-- `agfs_bmap` for writing. -/
def bmapWrite (w : Work) (block : Nat) : Except Errno Nat × Work :=
  match walkDirect f w.stream block with
  | .hit disk => (.ok disk, w)
  | .full _ => indirectBmap f block 2 w
  | .slot k covered =>
    growDirect f block (block + 1 - covered) w k
      ((w.stream.direct[k - 1]?.map fun r => r.len.toNat).getD 0) covered

/-! ## Shrinking a stream -/

/-- How many blocks of a run of `len` blocks from byte `covered` on a file of `length` bytes
keeps. -/
def keepOf (length covered len : Nat) : Nat :=
  if length ≤ covered then 0
  else if length < covered + len * f.blockSize then
    (length - covered + f.blockSize - 1) / f.blockSize
  else len

/-- The blocks behind the first `keep`. -/
def tailBlocks (r : Run) (keep : Nat) : List Nat :=
  List.range' (r.base f.agShift + keep) (r.len.toNat - keep)

/-- An array of runs cut to `length` bytes: the runs left, the blocks freed, the bytes covered
before. A run wholly beyond the length leaves its slot empty, and so do those behind it. -/
def cutRuns (length : Nat) : List Run → Nat → List Run × List Nat × Nat
  | [], covered => ([], [], covered)
  | r :: rest, covered =>
    if r.isEmpty then (r :: rest, [], covered)
    else
      let keep := keepOf f length covered r.len.toNat
      let later := cutRuns length rest (covered + r.len.toNat * f.blockSize)
      (if keep = 0 then later.1 else r.cut keep :: later.1, tailBlocks f r keep ++ later.2.1,
        later.2.2)

def cutTables (length : Nat) : List (List Run) → Nat → List (List Run) × List Nat
  | [], _ => ([], [])
  | runs :: rest, covered =>
    let first := cutRuns f length runs covered
    let later := cutTables length rest first.2.2
    (first.1 :: later.1, first.2.1 ++ later.2)

/-- The stream part of `agfs_truncate`: the new stream and the blocks it frees, in order. -/
def truncateStream (length : Nat) : Stream × List Nat :=
  let direct := cutRuns f length st.direct 0
  let tables := cutTables f length st.tables (st.maxDirectRange * f.blockSize)
  if length ≤ st.maxDirectRange * f.blockSize then
    ({ st with
        direct := direct.1
        indirect := .zero
        doubleIndirect := .zero
        addrs := []
        tables := [] },
      direct.2.1 ++ tables.2 ++ st.indirect.blocks f.agShift ++ st.addrs ++
        st.doubleIndirect.blocks f.agShift)
  else ({ st with direct := direct.1, tables := tables.1 }, direct.2.1 ++ tables.2)

/-- The direct runs in use with the blocks they cover. -/
def coveredBy : List Run → Nat × Nat
  | [] => (0, 0)
  | r :: rest =>
    if r.isEmpty then (0, 0)
    else
      let later := coveredBy rest
      (later.1 + 1, r.len.toNat + later.2)

/-- `agfs_trim_prealloc` on a stream file of `size` bytes: the last run gives up what lies
beyond the size. -/
def trimStream (size : Nat) : Stream × List Nat :=
  let needed := (size + f.blockSize - 1) / f.blockSize
  let n := (coveredBy st.direct).1
  let covered := (coveredBy st.direct).2
  match st.direct[n - 1]? with
  | none => (st, [])
  | some last =>
    if n = 0 ∨ covered ≤ needed then (st, [])
    else
      let keep := last.len.toNat - min (covered - needed) last.len.toNat
      ({ st with
          direct := if keep = 0 then st.direct.eraseIdx (n - 1)
            else st.direct.modify (n - 1) fun r => r.cut keep },
        tailBlocks f last keep)

end Bmap

/-- `agfs_bfree` of each block. -/
def bfreeAll (f : Format) (s : Space) (bs : List Nat) : Space :=
  bs.foldl (fun s b => s.bfree f.toGeometry f.bpb b) s

end Argentum.Agfs
