/-
# Agfs.Deletion — what a file leaves behind

A regular file is created, written to, truncated, moved out of its inode and trimmed, and then
deleted. A call may fail part-way: a block cannot be allocated, or cannot be read.

As long as the tables of the stream can be read and no run outgrows the 16 bits of its length, the
bitmap is the one before the file was created with the blocks of the file marked (`Held`). So
deletion restores it exactly if `agfs_ifree` goes on to free the stream, or the stream has no
blocks (`deletion_restores`). It decides by `i_blocks`, the size and the inline flag; a call that
failed after its first block leaves a file of size 0, or an inline one, with blocks
(`window_leaked`).
-/
import Argentum.Agfs.StreamCut
import Argentum.Agfs.Ownership

namespace Argentum.Agfs.Deletion

open Lib.Machine List Agfs.Stream
open Ownership (inlineMax)

/-! ## The machine -/

/-- A regular file and the allocator. -/
structure File extends Work where
  /-- `i_size`, in 32 bits. -/
  size : Nat
  /-- `i_blocks`. -/
  sectors : Nat
  /-- `AGFS_INODE_INLINE_DATA`. -/
  isInline : Bool

/-- The size in units of 512 bytes, rounded up in 32 bits. -/
def sectorsOf (size : Nat) : Nat := (size + 511) % 2 ^ 32 / 512

section Calls

variable (f : Format)

/-- The loop that moves `left` bytes to the stream from `offset` on: map a block, read it, fill it.
The reads succeed as `reads` says, and those behind it do. -/
def transfer : Nat → Nat → Nat → List Bool → Work → Bool × Work
  | 0, _, _, _, w => (true, w)
  | fuel + 1, offset, left, reads, w =>
    if left = 0 then (true, w)
    else
      match bmapWrite f w (offset % 2 ^ 32 / f.blockSize) with
      | (.error _, w) => (false, w)
      | (.ok _, w) =>
        if reads.headD true then
          let bytes := min (f.blockSize - offset % f.blockSize) left
          transfer fuel (offset + bytes) (left - bytes) reads.tail w
        else (false, w)

variable (x : File) (offset count : Nat) (reads : List Bool)

/-- `agfs_inline_expand`. -/
def inlineExpand : Bool × File :=
  match transfer f x.size 0 x.size reads x.toWork with
  | (false, w) => (false, { x with toWork := w })
  | (true, w) => (true, ⟨w, x.size, sectorsOf x.size, false⟩)

/-- `agfs_inline_write`. -/
def inlineWrite : File :=
  ⟨x.toWork, max x.size (offset + count), 0, true⟩

/-- The loop of `agfs_file_write`, and what it notes when it got through. -/
def streamWrite : File :=
  match transfer f count offset count reads x.toWork with
  | (false, w) => { x with toWork := w }
  | (true, w) =>
    let size := if x.size < offset + count then (offset + count) % 2 ^ 32 else x.size
    ⟨w, size, sectorsOf size, x.isInline⟩

/-- `agfs_file_write`. -/
def fileWrite (moves reads : List Bool) : File :=
  if count = 0 then streamWrite f x offset count reads
  else if x.isInline then
    if offset + count ≤ inlineMax then inlineWrite x offset count
    else
      match inlineExpand f x moves with
      | (false, x) => x
      | (true, x) => streamWrite f x offset count reads
  else if x.size = 0 ∧ offset = 0 ∧ count ≤ inlineMax then inlineWrite x offset count
  else streamWrite f x offset count reads

/-- The stream part of `agfs_truncate`. -/
def cut (x : File) (length : Nat) : File :=
  let cut := truncateStream f x.stream length
  ⟨⟨bfreeAll f x.space cut.2, cut.1⟩, length, x.sectors, x.isInline⟩

/-- `agfs_truncate`. -/
def truncate (length : Nat) (moves : List Bool) : File :=
  if x.isInline then
    if length ≤ inlineMax then { x with size := length }
    else
      match inlineExpand f x moves with
      | (false, x) => x
      | (true, x) => cut f x length
  else cut f x length

/-- `agfs_trim_prealloc`. -/
def trimPrealloc : File :=
  if x.size = 0 ∨ x.isInline then x
  else
    let cut := trimStream f x.stream x.size
    { x with toWork := ⟨bfreeAll f x.space cut.2, cut.1⟩ }

/-- Whether `agfs_ifree` truncates the file. -/
def holdsStream : Bool := x.sectors ≠ 0 || (!x.isInline && x.size ≠ 0)

/-- `agfs_ifree` of inode `i`, a file without attributes. -/
def ifree (i : Nat) (x : File) : Space :=
  (if holdsStream x then (truncate f x 0 []).space else x.space).bfree f.toGeometry f.bpb i

/-- `agfs_ialloc`. -/
def ialloc (s : Space) : Except Errno (Nat × File) :=
  match s.balloc f.toGeometry f.bpb with
  | .ok (s, i) => .ok (i, ⟨⟨s, .empty⟩, 0, 0, false⟩)
  | .error e => .error e

end Calls

inductive Label where
  | write (offset count : Nat) (moves reads : List Bool)
  | truncate (length : Nat) (moves : List Bool)
  /-- `agfs_inline_expand`, for a caller that needs the inode's room. -/
  | expand (moves : List Bool)
  | trim
  /-- A call that cannot read a block of the stream's tables. `agfs_indirect_bmap` loses the block
  that it has just taken, or leaves a table with what was in its block before; `agfs_truncate`
  goes no further. What the call leaves is open. -/
  | tableUnread (left : File)

section Step

variable (f : Format)

def step (x : File) : Label → Option File
  | .write offset count moves reads => some (fileWrite f x offset count moves reads)
  | .truncate length moves => some (truncate f x length moves)
  | .expand moves => if x.isInline then some (inlineExpand f x moves).2 else none
  | .trim => some (trimPrealloc f x)
  | .tableUnread left => some left

/-! ## The property and its condition -/

/-- Deleting the file gives the bitmap before it was created. -/
def Restores (s₀ : Space) (i : Nat) (x : File) : Prop :=
  ∀ b, f.used (ifree f i x) b = f.used s₀ b

/-- The stream has no blocks, or is one that `agfs_ifree` frees. -/
def Recognised (x : File) : Prop :=
  x.stream.blocks f.agShift = [] ∨ (x.isInline = false ∧ holdsStream x = true)

/-- Along the loop, no run is extended past the 16 bits of its length. -/
def TransferSafe : Nat → Nat → Nat → List Bool → Work → Prop
  | 0, _, _, _, _ => True
  | fuel + 1, offset, left, reads, w =>
    left ≠ 0 → BmapSafe f Unwrapped w (offset % 2 ^ 32 / f.blockSize) ∧
      ∀ b w', bmapWrite f w (offset % 2 ^ 32 / f.blockSize) = (.ok b, w') →
        TransferSafe fuel (offset + min (f.blockSize - offset % f.blockSize) left)
          (left - min (f.blockSize - offset % f.blockSize) left) reads.tail w'

def ExpandSafe (x : File) (moves : List Bool) : Prop :=
  TransferSafe f x.size 0 x.size moves x.toWork

def SafeLabel (x : File) : Label → Prop
  | .write offset count moves reads =>
    (x.isInline = false → ¬ (x.size = 0 ∧ offset = 0 ∧ count ≤ inlineMax) →
        TransferSafe f count offset count reads x.toWork) ∧
      (x.isInline = true → inlineMax < offset + count → ExpandSafe f x moves ∧
        ∀ x', inlineExpand f x moves = (true, x') →
          TransferSafe f count offset count reads x'.toWork)
  | .truncate length moves => x.isInline = true → inlineMax < length → ExpandSafe f x moves
  | .expand moves => ExpandSafe f x moves
  | .trim => True
  | .tableUnread _ => False

end Step

/-! ## The bitmap and the stream -/

section Growing

variable {f : Format} {base : Nat → Prop} {w : Work} {block : Nat} {fuel t : Nat} {s : Space}
  {st : Stream}

theorem mem_blocks {agShift b : Nat} :
    b ∈ st.blocks agShift ↔ b ∈ st.directData agShift ∨ b ∈ st.indirect.blocks agShift ∨
      b ∈ st.doubleIndirect.blocks agShift ∨ b ∈ st.addrs ∨ b ∈ st.tableData agShift := by
  simp only [blocks, mem_append, or_assoc]
  rfl

/-- The walks read the stream as it is meant, and what is marked is marked by `base` or is a block
of the stream. -/
structure Neat (f : Format) (base : Nat → Prop) (w : Work) : Prop where
  used : ∀ r ∈ w.stream.direct, r.isEmpty = false
  few : w.stream.direct.length ≤ numDirectBlocks
  tabled : Tabled f w.stream
  super : f.used w.space 0 = true
  tight : ∀ b, f.used w.space b = true → base b ∨ b ∈ w.stream.blocks f.agShift

/-- Blocks are taken, and the stream holds them too. -/
theorem Neat.grow (neat : Neat f base w) {bs : List Nat} (takes : Takes f w.space s bs)
    (used : Used st.direct) (few : st.direct.length ≤ numDirectBlocks)
    (tabled : Tabled f st) (holds : w.stream.blocks f.agShift ++ bs ⊆ st.blocks f.agShift) :
    Neat f base ⟨s, st⟩ := by
  refine ⟨used, few, tabled, takes.still neat.super, fun b marked => ?_⟩
  rw [takes.marks, Bool.or_eq_true, decide_eq_true_eq] at marked
  rcases marked with before | taken
  · exact (neat.tight b before).imp_right fun old => holds (mem_append_left bs old)
  · exact .inr (holds (mem_append_right _ taken))

theorem addTable_neat (neat : Neat f base w)
    (full : ∀ runs ∈ w.stream.tables, runs.length = f.arrayLen) :
    Neat f base (addTable f w).2 := by
  unfold addTable
  split
  · exact neat
  rename_i s next done
  refine neat.grow (balloc_takes done) neat.used neat.few (neat.tabled.grown full rfl) fun b => ?_
  simp only [mem_append, mem_blocks, directData, tableData, flatten_append,
    flatten_cons, flatten_nil, append_nil]
  tauto

/-- A run that is begun or extended holds its old blocks and the new one. -/
theorem begun_holds {r : Run} {s' : Space} {next : Nat} (none : r.len = 0)
    (done : s.balloc f.toGeometry f.bpb = .ok (s', next)) :
    Takes f s s' [next] ∧
      r.blocks f.agShift ++ [next] = (Run.make f.agShift next 1).blocks f.agShift := by
  have takes := balloc_takes done
  rw [made_blocks (takes.inside next mem_cons_self) (by decide), Run.blocks, none]
  exact ⟨takes, rfl⟩

theorem extended_holds {r : Run} {s' : Space} {next : Nat} (unwrapped : Unwrapped r)
    (taken : takeNext f s r r.len.toNat = some (s', next)) :
    Takes f s s' [next] ∧ r.blocks f.agShift ++ [next] = r.extend.blocks f.agShift := by
  obtain ⟨rfl, takes⟩ := takeNext_takes taken
  exact ⟨takes, (extend_blocks unwrapped).symm⟩

theorem growDouble_neat (neat : Neat f base w)
    (full : ∀ runs ∈ w.stream.tables, runs.length = f.arrayLen)
    (safe : w.stream.doubleIndirect.len ≠ 0 →
      (takeNext f w.space w.stream.doubleIndirect w.stream.doubleIndirect.len.toNat).isSome = true →
        Unwrapped w.stream.doubleIndirect) : Neat f base (growDouble f w).2 := by
  unfold growDouble
  -- whichever way the run grows, the table block comes behind
  have grown : ∀ {s : Space} {next : Nat} {r : Run}, Takes f w.space s [next] →
      w.stream.doubleIndirect.blocks f.agShift ++ [next] = r.blocks f.agShift →
      Neat f base (addTable f ⟨s, { w.stream with doubleIndirect := r }⟩).2 := by
    intro s next r takes blocks
    refine addTable_neat (neat.grow takes neat.used neat.few
      ⟨neat.tabled.tables, neat.tabled.dense⟩ fun b => ?_) full
    simp only [mem_append, mem_blocks, directData, tableData, ← blocks]
    tauto
  split
  · rename_i none
    split
    · exact neat
    · rename_i s next done
      obtain ⟨takes, blocks⟩ := begun_holds none done
      exact grown takes blocks
  · rename_i some
    split
    · rename_i s next taken
      obtain ⟨takes, blocks⟩ := extended_holds (safe some (by rw [taken]; rfl)) taken
      exact grown takes blocks
    · exact neat

theorem growTable_neat (neat : Neat f base w)
    (full : ∀ runs ∈ w.stream.tables, runs.length = f.arrayLen)
    (safe : w.stream.indirect.len ≠ 0 → TableSafe f Unwrapped w t) :
    Neat f base (growTable f w t).2 := by
  unfold growTable
  have grown : ∀ {s : Space} {next : Nat} {r : Run}, Takes f w.space s [next] →
      w.stream.indirect.blocks f.agShift ++ [next] = r.blocks f.agShift →
      Neat f base ⟨s, { w.stream with indirect := r, tables := w.stream.tables ++ [[]] }⟩ := by
    intro s next r takes blocks
    refine neat.grow takes neat.used neat.few (neat.tabled.grown full rfl) fun b => ?_
    simp only [mem_append, mem_blocks, directData, tableData, flatten_append,
      flatten_cons, flatten_nil, append_nil, ← blocks]
    tauto
  split
  · rename_i none
    split
    · exact neat
    · rename_i s next done
      obtain ⟨takes, blocks⟩ := begun_holds none done
      exact grown takes blocks
  · rename_i some
    obtain ⟨indirectSafe, doubleSafe⟩ := safe some
    split
    · rename_i s next taken
      split at taken
      · rename_i none
        obtain ⟨takes, blocks⟩ := extended_holds (indirectSafe none (by rw [taken]; rfl)) taken
        exact grown takes blocks
      · cases taken
    · simp only
      split
      · rename_i beyond
        exact growDouble_neat neat full fun double => doubleSafe double beyond
      · exact addTable_neat neat full

theorem fillSlot_takes {j nb : Nat} {w' : Work} (done : fillSlot f w t j = (.ok nb, w')) :
    Takes f w.space w'.space [nb] := by
  simp only [fillSlot] at done
  split at done
  · rename_i s next taken
    cases done
    obtain ⟨r, _, taken⟩ := Option.bind_eq_some_iff.mp taken
    split at taken
    · exact (takeNext_takes taken).2
    · cases taken
  · split at done
    · cases done
    · rename_i taken
      cases done
      exact balloc_takes taken

variable (neat : Neat f base w)

include neat

theorem fillSlot_neat {full : List (List Run)} {runs : List Run}
    {rest : List (List Run)} (split : w.stream.tables = full ++ runs :: rest)
    (before : ∀ l ∈ full, l.length = f.arrayLen) (room : runs.length < f.arrayLen)
    (empty : ∀ later ∈ rest, later = []) (safe : FillSafe f Unwrapped w full.length runs.length) :
    Neat f base (fillSlot f w full.length runs.length).2 := by
  cases done : fillSlot f w full.length runs.length with
  | mk outcome w' =>
    cases outcome with
    | error e =>
      have same : w' = w := by
        simp only [fillSlot] at done
        split at done
        · cases done
        split at done
        · cases done
          rfl
        · cases done
      exact same ▸ neat
    | ok nb =>
      have takes := fillSlot_takes done
      obtain ⟨tabled, direct, _, data⟩ :=
        fillSlot_tables neat.tabled neat.super split before room empty safe done
      have here : w.stream.tables[full.length]? = some runs := by simp [split]
      obtain ⟨grow, stream, _⟩ := fillSlot_runs neat.super here
        (neat.tabled.tables runs (mem_of_getElem? here)) safe done
      refine neat.grow takes (direct ▸ neat.used) (direct ▸ neat.few) tabled fun b held => ?_
      rw [mem_append, mem_blocks, directData] at held
      rw [mem_blocks, data, mem_append, directData]
      grind only

theorem indirectBmap_neat (safe : IndirectSafe f Unwrapped block fuel w) :
    Neat f base (indirectBmap f block fuel w).2 := by
  induction fuel generalizing w with
  | zero => exact neat
  | succ fuel ih =>
    rw [IndirectSafe] at safe
    rw [indirectBmap]
    rcases seek_cases neat.tabled (tableOffset w.stream block) with ⟨disk, _, ends⟩ |
      ⟨_, ⟨full, runs, rest, split, before, room, empty, ends⟩ | ⟨allFull, ends⟩⟩
    · rw [seekTables, ends]
      exact neat
    · rw [seekTables, ends] at safe ⊢
      simp only at safe ⊢
      split
      · exact neat
      · rename_i near
        exact fillSlot_neat neat split before room empty (safe near)
    · rw [seekTables, ends] at safe ⊢
      have grown := growTable_neat neat allFull safe.1
      simp only
      split
      · rename_i e w' done
        rw [done] at grown
        exact grown
      · rename_i w' done
        rw [done] at grown
        exact ih grown (safe.2 w' done)

theorem growDirect_neat {nrun lastLen covered : Nat} (count : w.stream.direct.length = nrun)
    (last : ∀ r, w.stream.direct.getLast? = some r → r.len.toNat = lastLen)
    (safe : GrowSafe f Unwrapped block fuel w nrun lastLen covered) :
    Neat f base (growDirect f block fuel w nrun lastLen covered).2 := by
  induction fuel generalizing w nrun lastLen covered with
  | zero => exact neat
  | succ fuel ih =>
    rw [GrowSafe] at safe
    split at safe
    · -- the last run is extended
      rename_i s nb found
      rw [growDirect, found]
      split at found
      · obtain ⟨r, here, taken⟩ := Option.bind_eq_some_iff.mp found
        obtain ⟨behind, takes⟩ := takeNext_takes taken
        have unwrapped : Unwrapped r := safe.1 r here
        have len := last r (by rw [List.getLast?_eq_getElem?, count]; exact here)
        have data : runData f.agShift (w.stream.direct.modify (nrun - 1) Run.extend) =
            runData f.agShift w.stream.direct ++ [r.base f.agShift + r.len.toNat] := by
          subst count
          exact runData_extend here unwrapped
        have grown : Neat f base ⟨s, { w.stream with
            direct := w.stream.direct.modify (nrun - 1) Run.extend
            maxDirectRange := covered + 1 }⟩ := by
          refine neat.grow takes (fun q member => mem_extended here unwrapped neat.used member) ?_
            ⟨neat.tabled.tables, neat.tabled.dense⟩ fun b => ?_
          · rw [length_modify]
            exact neat.few
          · simp only [mem_append, mem_blocks, directData, data, behind, len]
            tauto
        simp only
        split
        · exact grown
        rename_i beyond
        have count' : (w.stream.direct.modify (nrun - 1) Run.extend).length = nrun := by
          rw [length_modify, count]
        refine ih grown count' (fun q atLast => ?_) (safe.2 beyond)
        rw [List.getLast?_eq_getElem?] at atLast
        simp only [count', List.getElem?_modify_eq, here] at atLast
        cases atLast
        rw [extend_len unwrapped, len]
      · cases found
    · rename_i found
      rw [growDirect, found]
      simp only
      split at safe
      · rename_i all
        rw [if_pos all]
        exact indirectBmap_neat neat safe
      · rename_i more
        rw [if_neg more]
        split
        · exact neat
        -- a window becomes the next run
        rename_i s nb wlen done
        obtain ⟨positive, few, group, inside, takes⟩ := ballocContig_takes (by decide) done
        have blocks := made_blocks inside few
        have member : nb ∈ List.range' nb wlen := by
          rw [mem_range'_1]
          omega
        have window : delallocWindow = 256 := rfl
        rw [← count] at safe more ⊢
        simp only [take_length] at safe ⊢
        have grown : Neat f base ⟨s, { w.stream with
            direct := w.stream.direct ++ [Run.make f.agShift nb wlen]
            maxDirectRange := covered + wlen }⟩ := by
          refine neat.grow takes (fun q inDirect => ?_) ?_
            ⟨neat.tabled.tables, neat.tabled.dense⟩ fun b => ?_
          · rcases mem_append.mp inDirect with old | new
            · exact neat.used q old
            · rw [mem_singleton.mp new]
              exact make_used (takes.fresh neat.super member) inside positive few
          · rw [length_append, length_singleton]
            omega
          · simp only [mem_append, mem_blocks, directData, runData_append, runData_cons, blocks]
            tauto
        split
        · exact grown
        rename_i beyond
        refine ih grown (by simp) (fun q atLast => ?_) (safe s nb wlen done beyond)
        rw [List.getLast?_concat] at atLast
        cases atLast
        exact make_len (by omega)

theorem bmapWrite_neat
    (safe : BmapSafe f Unwrapped w block) : Neat f base (bmapWrite f w block).2 := by
  rw [BmapSafe] at safe
  rw [bmapWrite]
  cases found : (w.stream.directData f.agShift)[block]? with
  | some disk =>
    rw [walkDirect_hit neat.used found]
    exact neat
  | none =>
    rw [walkDirect_past neat.used (List.getElem?_eq_none_iff.mp found)] at safe ⊢
    by_cases few : w.stream.direct.length < numDirectBlocks
    · rw [if_pos few] at safe ⊢
      refine growDirect_neat neat rfl (fun r last => ?_) safe
      rw [List.getLast?_eq_getElem?] at last
      rw [last]
      rfl
    · rw [if_neg few] at safe ⊢
      exact indirectBmap_neat neat safe

end Growing

/-! ## The file -/

section Files

variable {f : Format} {base : Nat → Prop} {w : Work} {x : File} {b : Nat} {st : Stream}

/-- What is marked is what `base` marks and, in addition, the blocks of the stream. -/
structure Held (f : Format) (base : Nat → Prop) (w : Work) : Prop extends Neat f base w where
  fits : Fits f (fun _ => True) base w
  zero : base 0

theorem Held.used_iff (held : Held f base w) :
    f.used w.space b = true ↔ base b ∨ b ∈ w.stream.blocks f.agShift :=
  ⟨held.tight b, fun owner => owner.elim (held.fits.kept b) (held.fits.marked b)⟩

theorem Held.bmap (held : Held f base w) {block : Nat} (safe : BmapSafe f Unwrapped w block) :
    Held f base (bmapWrite f w block).2 :=
  ⟨bmapWrite_neat held.toNeat safe, bmapWrite_fits unwrapped_keeps held.fits safe, held.zero⟩

theorem Held.transfer (held : Held f base w) {fuel offset left : Nat} {reads : List Bool}
    (safe : TransferSafe f fuel offset left reads w) :
    Held f base (transfer f fuel offset left reads w).2 := by
  induction fuel generalizing offset left reads w with
  | zero => exact held
  | succ fuel ih =>
    rw [TransferSafe] at safe
    rw [Deletion.transfer]
    split
    · exact held
    rename_i some
    obtain ⟨here, later⟩ := safe some
    have next := held.bmap here
    split
    · rename_i e w' done
      rw [done] at next
      exact next
    · rename_i b w' done
      rw [done] at next
      split
      · exact ih next (later b w' done)
      · exact next

/-- Every block of the stream is left to it or freed: what is cut in the tables is freed before
the tables are. -/
theorem truncateStream_parts (tabled : Tabled f st) (length : Nat)
    (held : b ∈ st.blocks f.agShift) :
    b ∈ (truncateStream f st length).1.blocks f.agShift ∨ b ∈ (truncateStream f st length).2 := by
  have direct : b ∈ st.directData f.agShift →
      b ∈ runData f.agShift (cutRuns f length st.direct 0).1 ∨
        b ∈ (cutRuns f length st.direct 0).2.1 := fun member => by
    have parts := (cutRuns_blocks length st.direct 0).mem_iff.mpr member
    exact mem_append.mp parts
  have tables : b ∈ st.tableData f.agShift →
      b ∈ runData f.agShift
          (cutTables f length st.tables (st.maxDirectRange * f.blockSize)).1.flatten ∨
        b ∈ (cutTables f length st.tables (st.maxDirectRange * f.blockSize)).2 := fun member => by
    have parts := (cutTables_blocks length st.tables
      (st.maxDirectRange * f.blockSize)).mem_iff.mpr member
    exact mem_append.mp parts
  rw [mem_blocks] at held
  rw [truncateStream]
  split
  · rename_i short
    have none : ¬ b ∈ runData f.agShift
        (cutTables f length st.tables (st.maxDirectRange * f.blockSize)).1.flatten := by
      rw [flatten_of_empty (cutTables_none tabled.tables short)]
      exact not_mem_nil
    rw [mem_blocks]
    simp only [mem_append] at direct ⊢
    tauto
  · rw [mem_blocks]
    simp only [directData, tableData, mem_append] at direct tables held ⊢
    grind only

theorem Held.give (held : Held f base w) {bs : List Nat}
    (fits : Fits f (fun _ => True) base ⟨bfreeAll f w.space bs, st⟩)
    (freed : ∀ b ∈ bs, b ∈ w.stream.blocks f.agShift)
    (parts : ∀ b ∈ w.stream.blocks f.agShift, b ∈ st.blocks f.agShift ∨ b ∈ bs)
    (used : Used st.direct) (few : st.direct.length ≤ numDirectBlocks)
    (tabled : Tabled f st) : Held f base ⟨bfreeAll f w.space bs, st⟩ := by
  refine ⟨⟨used, few, tabled, fits.kept 0 held.zero, fun b marked => ?_⟩, fits, held.zero⟩
  have gives := bfreeAll_gives w.space fun b member => held.fits.inside b (freed b member)
  rw [gives b, Bool.and_eq_true, Bool.not_eq_true', decide_eq_false_iff_not] at marked
  rcases held.tight b marked.1 with other | mine
  · exact .inl other
  · exact .inr ((parts b mine).resolve_right marked.2)

section

variable (held : Held f base x.toWork) {moves : List Bool} {count offset : Nat} {reads : List Bool}

include held

theorem Held.cut (length : Nat) : Held f base (cut f x length).toWork := by
  have members := (truncateStream_subperm (f := f) x.stream length).subset
  refine held.give (truncateStream_fits unwrapped_keeps held.fits length)
    (fun b freed => members (mem_append_right _ freed))
    (fun b mine => truncateStream_parts held.tabled length mine) ?_ ?_ ?_
  · rw [truncateStream_direct]
    exact cutRuns_used length held.used 0
  · rw [truncateStream_direct]
    exact Nat.le_trans (cutRuns_length (f := f) length held.used 0).1 held.few
  · by_cases short : length ≤ x.stream.maxDirectRange * f.blockSize
    · have none := (truncateStream_short short).2
      refine ⟨?_, ?_⟩
      · rw [none]
        simp
      · rw [none]
        trivial
    · have tables := (truncateStream_long short).2
      refine ⟨?_, ?_⟩
      · rw [tables]
        exact cutTables_used length held.tabled.tables _
      · rw [tables]
        exact cutTables_dense held.tabled.tables held.tabled.dense _

theorem Held.trim : Held f base (trimPrealloc f x).toWork := by
  unfold trimPrealloc
  split
  · exact held
  have perm := trimStream_perm (f := f) x.stream x.size
  have formed : Used (trimStream f x.stream x.size).1.direct ∧
      (trimStream f x.stream x.size).1.direct.length ≤ numDirectBlocks ∧
      Tabled f (trimStream f x.stream x.size).1 := by
    rcases trimStream_cases held.used x.size with same | ⟨runs, trimmed, _, used, fewer, _⟩
    · rw [same]
      exact ⟨held.used, held.few, held.tabled⟩
    · rw [trimmed]
      exact ⟨used, Nat.le_trans fewer held.few, held.tabled.tables, held.tabled.dense⟩
  exact held.give (trimStream_fits unwrapped_keeps held.fits x.size)
    (fun b freed => perm.subset (mem_append_right _ freed))
    (fun b mine => mem_append.mp (perm.mem_iff.mpr mine)) formed.1 formed.2.1 formed.2.2

theorem Held.expand (safe : ExpandSafe f x moves) {moved : Bool} {x' : File}
    (done : inlineExpand f x moves = (moved, x')) : Held f base x'.toWork := by
  have next := held.transfer safe
  unfold inlineExpand at done
  split at done <;>
  · rename_i w transferred
    rw [transferred] at next
    cases done
    exact next

theorem Held.streamWrite (safe : TransferSafe f count offset count reads x.toWork) :
    Held f base (streamWrite f x offset count reads).toWork := by
  have moved := held.transfer safe
  unfold Deletion.streamWrite
  split <;>
  · rename_i w done
    rw [done] at moved
    exact moved

theorem Held.write (safe : SafeLabel f x (.write offset count moves reads)) :
    Held f base (fileWrite f x offset count moves reads).toWork := by
  unfold fileWrite
  split
  · rename_i none
    subst none
    exact held.streamWrite trivial
  · split
    · rename_i inTail
      split
      · exact held
      rename_i long
      obtain ⟨expandSafe, writeSafe⟩ := safe.2 inTail (Nat.lt_of_not_le long)
      split
      · exact held.expand expandSafe ‹_›
      · rename_i x' done
        exact (held.expand expandSafe done).streamWrite (writeSafe x' done)
    · rename_i inStream
      split
      · exact held
      · rename_i notSmall
        exact held.streamWrite (safe.1 (Bool.eq_false_iff.mpr inStream) notSmall)

theorem Held.truncate {length : Nat} (safe : SafeLabel f x (.truncate length moves)) :
    Held f base (truncate f x length moves).toWork := by
  unfold Deletion.truncate
  split
  · rename_i inTail
    split
    · exact held
    rename_i long
    have expandSafe := safe inTail (Nat.lt_of_not_le long)
    split
    · exact held.expand expandSafe ‹_›
    · exact (held.expand expandSafe ‹_›).cut length
  · exact held.cut length

theorem step_held {x' : File} {l : Label} (safe : SafeLabel f x l) (taken : step f x l = some x') :
    Held f base x'.toWork := by
  cases l with
  | write offset count moves reads =>
    cases taken
    exact held.write safe
  | truncate length moves =>
    cases taken
    exact held.truncate safe
  | expand moves =>
    rw [step, when_eq_some] at taken
    obtain ⟨-, rfl⟩ := taken
    exact held.expand safe rfl
  | trim =>
    cases taken
    exact held.trim
  | tableUnread => exact safe.elim

end

/-! ## Deletion -/

/-- The blocks marked before the file was created, and its inode. -/
def Before (f : Format) (s₀ : Space) (i b : Nat) : Prop := f.used s₀ b = true ∨ b = i

variable {s₀ : Space} {i : Nat} {x₀ : File}

theorem ialloc_held (super : f.used s₀ 0 = true) (created : ialloc f s₀ = .ok (i, x₀)) :
    Held f (Before f s₀ i) x₀.toWork ∧ f.used s₀ i = false ∧ i < f.numBlocks := by
  unfold ialloc at created
  split at created
  · rename_i s j taken
    cases created
    have takes := balloc_takes taken
    have few : ([] : List Run).length ≤ numDirectBlocks := by decide
    refine ⟨⟨⟨nofun, few, ⟨nofun, trivial⟩, takes.still super, fun b marked => ?_⟩,
      ⟨⟨nofun, trivial, trivial, nofun⟩, nodup_nil, nofun, nofun, nofun, fun b other => ?_⟩,
      .inl super⟩, takes.free i mem_cons_self, takes.inside i mem_cons_self⟩
    · have cases := takes.marks b
      rw [marked] at cases
      by_cases new : b = i
      · exact .inl (.inr new)
      · exact .inl (.inl (by simpa [new] using cases.symm))
    · rw [takes.marks]
      rcases other with old | rfl
      · rw [old]
        rfl
      · simp
  · cases created

/-- With the inode's block freed, the bitmap is as before if the stream has no blocks left. -/
theorem Held.restores_iff (held : Held f (Before f s₀ i) w) (free : f.used s₀ i = false)
    (inside : i < f.numBlocks) :
    (∀ b, f.used (w.space.bfree f.toGeometry f.bpb i) b = f.used s₀ b) ↔
      w.stream.blocks f.agShift = [] := by
  constructor
  · intro restored
    rw [eq_nil_iff_forall_not_mem]
    intro b mine
    have apart := held.fits.apart b mine
    have same := restored b
    have other : b ≠ i := fun own => apart (.inr own)
    rw [used_bfree w.space inside, held.fits.marked b mine, decide_eq_false other] at same
    exact apart (.inl same.symm)
  · intro none b
    rw [used_bfree w.space inside]
    by_cases own : b = i
    · rw [own, free, decide_eq_true rfl]
      exact Bool.and_false _
    · have owner : f.used w.space b = true ↔ Before f s₀ i b ∨ b ∈ w.stream.blocks f.agShift :=
        held.used_iff
      rw [decide_eq_false own, Bool.not_false, Bool.and_true, Bool.eq_iff_iff, owner, none]
      simp [Before, own]

/-- Truncated to nothing, the stream has no blocks. -/
theorem cut_zero (used : Used x.stream.direct) : (cut f x 0).stream.blocks f.agShift = [] := by
  show (truncateStream f x.stream 0).1.blocks f.agShift = []
  rw [truncateStream]
  simp only [cutRuns_none used le_rfl]
  rfl

/-- **Deletion restores the bitmap exactly if the stream is empty or `agfs_ifree` knows of it.** -/
theorem deletion_restores {ls : List Label} (super : f.used s₀ 0 = true)
    (created : ialloc f s₀ = .ok (i, x₀)) (safe : Guarded (step f) (SafeLabel f) x₀ ls)
    (ran : run (step f) x₀ ls = some x) : Restores f s₀ i x ↔ Recognised f x := by
  obtain ⟨start, free, inside⟩ := ialloc_held super created
  have held := run_inv (fun _ _ _ held safe taken => step_held held safe taken) start safe ran
  unfold Restores ifree Recognised
  cases inTail : x.isInline with
  | true =>
    have kept : (if holdsStream x then (Deletion.truncate f x 0 []).space else x.space) =
        x.space := by
      rw [Deletion.truncate, if_pos inTail]
      exact ite_self _
    rw [kept, held.restores_iff free inside]
    simp
  | false =>
    cases known : holdsStream x with
    | true =>
      have freed : (Deletion.truncate f x 0 []) = cut f x 0 := by
        rw [Deletion.truncate, if_neg (by rw [inTail]; decide)]
      rw [if_pos rfl, freed, (held.cut 0).restores_iff free inside]
      exact iff_of_true (cut_zero held.used) (.inr ⟨rfl, rfl⟩)
    | false =>
      rw [if_neg (by decide), held.restores_iff free inside]
      simp

end Files

/-! ## Poles -/

open Ownership (threeGroups blankVol)

/-- The inode is block 5. -/
def newFile : File := ⟨⟨{ blankVol.space.mark threeGroups.toGeometry threeGroups.bpb 5 true with
  usedBlocks := 6, nextFree := 6 }, .empty⟩, 0, 0, false⟩

theorem newFile_created : ialloc threeGroups blankVol.space = .ok (5, newFile) := rfl

/-- Written to, cut and trimmed. -/
def lifetime : List Label := [.write 0 600 [] [], .truncate 100 [], .trim]

theorem lifetime_safe : Guarded (step threeGroups) (SafeLabel threeGroups) newFile lifetime := by
  have inStream : (step threeGroups newFile (.write 0 600 [] [])).all (!·.isInline) = true := by
    decide +kernel
  refine ⟨⟨fun _ _ some => ⟨fun s nb wlen window beyond => ?_, fun b w' _ more => ?_⟩, nofun⟩,
    fun x taken => ⟨fun inTail => ?_, fun _ _ => ⟨trivial, fun _ _ => trivial⟩⟩⟩
  · -- the first window reaches the first block
    have positive := (ballocContig_takes (by decide) window).1
    have first : 0 % 2 ^ 32 / threeGroups.blockSize = 0 := by decide
    omega
  · exact absurd (by decide) more
  · rw [taken, Option.all_some, inTail] at inStream
    cases inStream

theorem lifetime_known :
    (run (step threeGroups) newFile lifetime).any
      (fun x => !x.isInline && holdsStream x) = true := by
  decide +kernel

theorem deletion_restores_lifetime :
    ∃ x, run (step threeGroups) newFile lifetime = some x ∧
      Restores threeGroups blankVol.space 5 x := by
  obtain ⟨x, ran, found⟩ := (Option.any_eq_true _ _).mp lifetime_known
  rw [Bool.and_eq_true, Bool.not_eq_true'] at found
  exact ⟨x, ran, (deletion_restores rfl newFile_created lifetime_safe ran).mpr (.inr found)⟩

/-- Some block is marked otherwise than before the file was created. -/
def leakTest (x : File) : Bool :=
  (List.range 24).any fun b =>
    threeGroups.used (ifree threeGroups 5 x) b != threeGroups.used blankVol.space b

theorem failed_write_leaks :
    (run (step threeGroups) newFile [.write 0 600 [] [false]]).any leakTest = true := by
  decide +kernel

/-- **A window is lost**: the first write to a file allocates it, and the block cannot be read. -/
theorem window_leaked :
    threeGroups.used blankVol.space 0 = true ∧
      ialloc threeGroups blankVol.space = .ok (5, newFile) ∧
      ∃ x, run (step threeGroups) newFile [.write 0 600 [] [false]] = some x ∧
        ¬ Restores threeGroups blankVol.space 5 x := by
  obtain ⟨x, ran, leaked⟩ := (Option.any_eq_true _ _).mp failed_write_leaks
  refine ⟨rfl, newFile_created, x, ran, fun restores => ?_⟩
  simp only [leakTest, any_eq_true, bne_iff_ne] at leaked
  obtain ⟨b, _, differ⟩ := leaked
  exact differ (restores b)

end Argentum.Agfs.Deletion
