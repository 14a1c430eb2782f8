/-
# Agfs.Append — a file that grows at its end

A regular file is appended to, cut to smaller lengths and trimmed, in any order, while the
rest of the volume takes and frees blocks.

A file in order (`Ready`) maps file blocks one after another, first in the direct runs and
then in the tables (`mapped`), which count from `max_direct_range`, the end of the direct
runs. Growing keeps that (`grow_next`). Truncating and trimming shorten the last run and
leave `max_direct_range`; if the twelfth run then still has blocks, the next append is looked
for at a negative offset and ends in `EIO` (`append_fails`). Where that does not happen
(`SafeCut`), `appends_succeed` says that the next block can be had as long as a block is free,
apart from a double table that is full and cannot be extended in place, and from the 16 bits
of a run's length.
-/
import Argentum.Agfs.StreamCut
import Argentum.Agfs.ReadBack

namespace Argentum.Agfs.Append

open Lib.Machine Agfs.Stream

/-! ## The machine -/

/-- A file that is not inline, and the allocator. -/
structure File extends Work where
  /-- `i_size`. -/
  size : Nat

inductive Label where
  /-- One round of the loop of `agfs_file_write` at the end of the file: so many bytes, in one
  block. -/
  | append (bytes : Nat)
  /-- `agfs_truncate` to a length that is not larger. -/
  | truncate (length : Nat)
  /-- `agfs_trim_prealloc`. -/
  | trim
  /-- What others do to the bitmap and the allocation hint. -/
  | foreign (s : Space)

section Step

variable (f : Format)

/-- A failed call of `agfs_bmap` leaves what it has done so far, and the size. -/
def step (x : File) : Label → Option File
  | .append bytes =>
    if bytes = 0 ∨ f.blockSize < x.size % f.blockSize + bytes ∨ 2 ^ 32 ≤ x.size + bytes then none
    else
      match bmapWrite f x.toWork (x.size / f.blockSize) with
      | (.ok _, w) => some ⟨w, x.size + bytes⟩
      | (.error _, w) => some ⟨w, x.size⟩
  | .truncate length =>
    if x.size < length then none
    else
      let cut := truncateStream f x.stream length
      some ⟨⟨bfreeAll f x.space cut.2, cut.1⟩, length⟩
  | .trim =>
    if x.size = 0 then some x
    else
      let cut := trimStream f x.stream x.size
      some ⟨⟨bfreeAll f x.space cut.2, cut.1⟩, x.size⟩
  | .foreign s =>
    if f.used s 0 ∧ ∀ b ∈ x.stream.blocks f.agShift, f.used s b then
      some ⟨⟨s, x.stream⟩, x.size⟩
    else none

/-! ## The property and its condition -/

/-- The block right behind the last one that is mapped. -/
def IsNext (st : Stream) (n : Nat) : Prop :=
  (∀ c, c < 2 ^ 32 → bmapRead f st c ≠ none → c < n) ∧ (n = 0 ∨ bmapRead f st (n - 1) ≠ none)

def Full (s : Space) : Prop := ∀ b, b < f.numBlocks → f.used s b = true

/-- The block is mapped to what the call returns, and nothing moves; or no block is free. -/
def Extends (w : Work) (n : Nat) : Prop :=
  match bmapWrite f w n with
  | (.ok nb, w') => bmapRead f w'.stream n = some nb ∧
      ∀ c b, c < 2 ^ 32 → bmapRead f w.stream c = some b → bmapRead f w'.stream c = some b
  | (.error e, w') => e = .enospc ∧ Full f w'.space

/-- If a double table that is full has to grow, the block behind it is free. -/
def DoubleRoom (w : Work) (n : Nat) : Prop :=
  ∀ t, seekTables f w.stream n = .none t → w.stream.doubleIndirect.len ≠ 0 →
    w.stream.doubleIndirect.len.toNat * f.darray ≤ t - w.stream.indirect.len.toNat →
      (takeNext f w.space w.stream.doubleIndirect w.stream.doubleIndirect.len.toNat).isSome = true

/-- No run is extended past the 16 bits of its length, and the double table has room. -/
def SafeNext (w : Work) (n : Nat) : Prop := BmapSafe f Unwrapped w n ∧ DoubleRoom f w n

/-- Where all twelve direct runs are in use, the cut leaves the last one as it is or takes all of
it. -/
def SafeCut (st : Stream) (length : Nat) : Prop :=
  st.direct.length = numDirectBlocks →
    blocksFor f length ≤ (runData f.agShift st.direct.dropLast).length ∨
      (st.directData f.agShift).length ≤ blocksFor f length

def SafeLabel (x : File) : Label → Prop
  | .append _ => SafeNext f x.toWork (x.size / f.blockSize)
  | .truncate length => SafeCut f x.stream length
  | .trim => SafeCut f x.stream x.size
  | .foreign _ => True

end Step

/-! ## A file in order -/

section Order

variable {f : Format}

/-- The disk blocks of the file, in file order. -/
def mapped (f : Format) (st : Stream) : List Nat :=
  st.directData f.agShift ++ st.tableData f.agShift

/-- Each file block is where the runs, read one after another, have it. -/
structure InOrder (f : Format) (w : Work) : Prop where
  shape : Shape f w.stream
  fits : Fits f (fun _ => True) (· = 0) w
  /-- The tables count from the end of the direct runs. -/
  range : w.stream.direct.length = numDirectBlocks →
    (w.stream.directData f.agShift).length = w.stream.maxDirectRange

structure Ready (f : Format) (x : File) : Prop extends InOrder f x.toWork where
  tables : x.stream.tables ≠ [] → x.stream.maxDirectRange * f.blockSize ≤ x.size
  covers : blocksFor f x.size ≤ (mapped f x.stream).length
  small : x.size < 2 ^ 32

variable {w w' : Work} {n : Nat} {e : Errno} {s : Space} {t : Nat}

theorem InOrder.no_tables (order : InOrder f w) (few : w.stream.direct.length < numDirectBlocks) :
    w.stream.tables = [] := by
  by_contra some
  exact absurd (order.shape.behind some) (Nat.ne_of_lt few)

theorem InOrder.mapped_length (order : InOrder f w) : (mapped f w.stream).length < 2 ^ 31 := by
  refine nodup_length_lt order.fits rfl (data_nodup order.fits) fun b member => ?_
  rcases List.mem_append.mp member with direct | table
  · exact mem_blocks_of_direct direct
  · exact mem_blocks_of_table table

theorem InOrder.read (order : InOrder f w) {c : Nat} (small : c < 2 ^ 32) :
    bmapRead f w.stream c = (mapped f w.stream)[c]? := by
  rw [bmapRead_eq order.shape, mapped]
  split
  · rename_i inside
    rw [List.getElem?_append_left inside]
  rename_i beyond
  rw [List.getElem?_append_right (Nat.le_of_not_lt beyond)]
  split
  · rename_i few
    rw [tableData, order.no_tables few]
    rfl
  · rename_i notFew
    have range := order.range (Nat.le_antisymm order.shape.few (Nat.le_of_not_lt notFew))
    rw [tableOffset_behind order.shape.range (by omega) small, range]

theorem InOrder.next_eq (order : InOrder f w) (next : IsNext f w.stream n) (small : n < 2 ^ 32) :
    n = (mapped f w.stream).length := by
  refine Nat.le_antisymm ?_ ?_
  · rcases next.2 with rfl | last
    · exact Nat.zero_le _
    · rw [order.read (by omega), Ne, List.getElem?_eq_none_iff] at last
      omega
  · by_contra more
    refine absurd (next.1 n small ?_) (Nat.lt_irrefl n)
    rw [order.read small, Ne, List.getElem?_eq_none_iff]
    omega

/-! ## Growing -/

theorem firstFree_full (none : s.firstFree f.toGeometry f.bpb = none) : Full f s := by
  intro b inside
  simp only [Space.firstFree, List.find?_eq_none] at none
  have member : b ∈ f.searchOrder (if f.numBlocks ≤ s.nextFree then 0 else s.nextFree) := by
    simp only [Geometry.searchOrder, List.mem_append, List.mem_range'_1, List.mem_range]
    split <;> omega
  simpa [Format.used] using none b member

theorem balloc_full (failed : s.balloc f.toGeometry f.bpb = .error e) : e = .enospc ∧ Full f s := by
  unfold Space.balloc at failed
  split at failed
  · cases failed
  · rename_i none
    cases failed
    exact ⟨rfl, firstFree_full none⟩

theorem ballocContig_full {want : Nat}
    (failed : s.ballocContig f.toGeometry f.bpb want = .error e) : e = .enospc ∧ Full f s := by
  unfold Space.ballocContig at failed
  split at failed
  · cases failed
  · rename_i none
    cases failed
    exact ⟨rfl, firstFree_full none⟩

theorem addTable_fails (failed : addTable f w = (.error e, w')) :
    e = .enospc ∧ Full f w'.space ∧ w' = w := by
  unfold addTable at failed
  split at failed
  · rename_i none
    cases failed
    obtain ⟨rfl, full⟩ := balloc_full none
    exact ⟨rfl, full, rfl⟩
  · cases failed

/-- A table that cannot grow leaves what the walks read. -/
theorem growTable_fails (room : w.stream.doubleIndirect.len ≠ 0 →
      w.stream.doubleIndirect.len.toNat * f.darray ≤ t - w.stream.indirect.len.toNat →
        (takeNext f w.space w.stream.doubleIndirect
          w.stream.doubleIndirect.len.toNat).isSome = true)
    (failed : growTable f w t = (.error e, w')) :
    e = .enospc ∧ Full f w'.space ∧ w'.stream.direct = w.stream.direct ∧
      w'.stream.maxDirectRange = w.stream.maxDirectRange ∧
      w'.stream.tables = w.stream.tables := by
  unfold growTable at failed
  split at failed
  · split at failed
    · rename_i none
      cases failed
      obtain ⟨rfl, full⟩ := balloc_full none
      exact ⟨rfl, full, rfl, rfl, rfl⟩
    · cases failed
  · split at failed
    · cases failed
    simp only at failed
    split at failed
    · rename_i slots
      unfold growDouble at failed
      split at failed
      · split at failed
        · rename_i none
          cases failed
          obtain ⟨rfl, full⟩ := balloc_full none
          exact ⟨rfl, full, rfl, rfl, rfl⟩
        · obtain ⟨rfl, full, rfl⟩ := addTable_fails failed
          exact ⟨rfl, full, rfl, rfl, rfl⟩
      · rename_i double
        have free := room double slots
        split at failed
        · obtain ⟨rfl, full, rfl⟩ := addTable_fails failed
          exact ⟨rfl, full, rfl, rfl, rfl⟩
        · rename_i none
          rw [none] at free
          cases free
    · obtain ⟨rfl, full, rfl⟩ := addTable_fails failed
      exact ⟨rfl, full, rfl, rfl, rfl⟩

theorem fillSlot_fails {j : Nat} (failed : fillSlot f w t j = (.error e, w')) :
    e = .enospc ∧ Full f w'.space ∧ w' = w := by
  simp only [fillSlot] at failed
  split at failed
  · cases failed
  split at failed
  · rename_i none
    cases failed
    obtain ⟨rfl, full⟩ := balloc_full none
    exact ⟨rfl, full, rfl⟩
  · cases failed

/-- The tables refuse the block behind their data only when no block is free. -/
theorem indirectBmap_fails {block : Nat} (tabled : Tabled f w.stream) (array : 0 < f.arrayLen)
    (here : tableOffset w.stream block = (w.stream.tableData f.agShift).length)
    (room : DoubleRoom f w block) (failed : indirectBmap f block 2 w = (.error e, w')) :
    e = .enospc ∧ Full f w'.space ∧ w'.stream.direct = w.stream.direct ∧
      w'.stream.maxDirectRange = w.stream.maxDirectRange ∧ Tabled f w'.stream ∧
      w'.stream.tableData f.agShift = w.stream.tableData f.agShift := by
  rw [indirectBmap] at failed
  rcases seek_cases tabled (tableOffset w.stream block) with ⟨disk, found, ends⟩ |
    ⟨_, ⟨front, runs, rest, split, _, _, _, ends⟩ | ⟨allFull, ends⟩⟩
  · rw [seekTables, ends] at failed
    cases failed
  · rw [seekTables, ends] at failed
    simp only [if_neg (Nat.not_lt.mpr (Nat.le_of_eq here))] at failed
    obtain ⟨rfl, full, rfl⟩ := fillSlot_fails failed
    exact ⟨rfl, full, rfl, rfl, tabled, rfl⟩
  · have sought : seekTables f w.stream block = .none w.stream.tables.length := ends
    rw [sought] at failed
    simp only at failed
    split at failed
    · rename_i e' v stuck
      cases failed
      obtain ⟨rfl, full, direct, range, tables⟩ := growTable_fails (room _ sought) stuck
      refine ⟨rfl, full, direct, range, ⟨tables ▸ tabled.tables, tables ▸ tabled.dense⟩, ?_⟩
      rw [tableData, tables, tableData]
    · -- with one table more there is a slot
      rename_i v grown
      obtain ⟨direct, range, tables, _⟩ := growTable_tables grown
      have tabled' : Tabled f v.stream := tabled.grown allFull tables
      have data : v.stream.tableData f.agShift = w.stream.tableData f.agShift := by
        rw [tableData, tables]
        simp [tableData]
      have here' : tableOffset v.stream block = (v.stream.tableData f.agShift).length := by
        rw [tableOffset, range, data]
        exact here
      rw [indirectBmap] at failed
      rcases seek_cases tabled' (tableOffset v.stream block) with ⟨disk, found, ends⟩ |
        ⟨_, ⟨front, runs, rest, split, _, _, _, ends⟩ | ⟨allFull', ends⟩⟩
      · rw [seekTables, ends] at failed
        cases failed
      · rw [seekTables, ends] at failed
        simp only [if_neg (Nat.not_lt.mpr (Nat.le_of_eq here'))] at failed
        obtain ⟨rfl, full, rfl⟩ := fillSlot_fails failed
        exact ⟨rfl, full, direct, range, tabled', data⟩
      · have zero := allFull' [] (by rw [tables]; simp)
        rw [List.length_nil] at zero
        omega

/-- What asking for the next block comes to, in the state it leaves. -/
structure Grows (f : Format) (w : Work) (n : Nat) (result : Except Errno Nat × Work) : Prop where
  order : InOrder f result.2
  /-- Tables are begun behind the direct range only. -/
  tables : result.2.stream.tables ≠ [] → result.2.stream.maxDirectRange ≤ n
  longer : mapped f w.stream <+: mapped f result.2.stream
  here : ∀ nb, result.1 = .ok nb → (mapped f result.2.stream)[n]? = some nb
  fails : ∀ e, result.1 = .error e → e = .enospc ∧ Full f result.2.space

theorem growDirect_fails (few : w.stream.direct.length < numDirectBlocks)
    (failed : growDirect f n 1 w w.stream.direct.length w.stream.lastLen n = (.error e, w')) :
    e = .enospc ∧ Full f w'.space ∧ w' = w := by
  rw [growDirect] at failed
  split at failed
  · simp only [Nat.lt_succ_self] at failed
    cases failed
  rw [if_neg (Nat.not_le.mpr few)] at failed
  split at failed
  · rename_i none
    cases failed
    obtain ⟨rfl, full⟩ := ballocContig_full none
    exact ⟨rfl, full, rfl⟩
  · rename_i s nb wlen window
    have positive := (ballocContig_takes (by decide) window).1
    simp only [if_pos (show n < n + wlen by omega)] at failed
    cases failed

variable (order : InOrder f w)

include order

theorem grows_direct (few : w.stream.direct.length < numDirectBlocks)
    (next : n = (mapped f w.stream).length) (safe : BmapSafe f Unwrapped w n) :
    Grows f w n (bmapWrite f w n) := by
  have fits' := bmapWrite_fits unwrapped_keeps order.fits safe
  have none := order.no_tables few
  have atEnd : n = (w.stream.directData f.agShift).length := by
    rw [next, mapped, tableData, none]
    simp
  have walked := walkDirect_past order.shape.direct (Nat.le_of_eq atEnd.symm)
  rw [if_pos few, ← atEnd] at walked
  rw [BmapSafe, walked] at safe
  simp only [Nat.add_sub_cancel_left] at safe
  have written : bmapWrite f w n = growDirect f n 1 w w.stream.direct.length w.stream.lastLen n := by
    rw [bmapWrite, walked]
    simp only [Nat.add_sub_cancel_left]
  rw [written] at fits' ⊢
  cases done : growDirect f n 1 w w.stream.direct.length w.stream.lastLen n with
  | mk outcome w' =>
    rw [done] at fits'
    cases outcome with
    | error e =>
      obtain ⟨rfl, full, rfl⟩ := growDirect_fails few done
      refine ⟨order, fun some => absurd none some, List.prefix_refl _, fun nb ok => ?_,
        fun e failed => ?_⟩
      · cases ok
      · cases failed
        exact ⟨rfl, full⟩
    | ok nb =>
      obtain ⟨more, data, count, tables, range, used, most⟩ :=
        growDirect_grown order.shape order.fits rfl few atEnd safe done
      have grown := grown_of_direct order.shape fits' rfl few atEnd data count tables range used
        most
      have none' : w'.stream.tables = [] := tables.trans none
      have whole : mapped f w'.stream = mapped f w.stream ++ nb :: more := by
        rw [mapped, mapped, data, tableData, tableData, none, none']
        simp
      refine ⟨⟨grown.shape, fits', fun _ => range.symm⟩, fun some => absurd none' some, ?_,
        fun b ok => ?_, fun e failed => ?_⟩
      · rw [whole]
        exact List.prefix_append _ _
      · cases ok
        rw [whole, next, List.getElem?_append_right le_rfl, Nat.sub_self]
        rfl
      · cases failed

theorem grows_table (array : 0 < f.arrayLen) (all : w.stream.direct.length = numDirectBlocks)
    (next : n = (mapped f w.stream).length) (safe : SafeNext f w n) :
    Grows f w n (bmapWrite f w n) := by
  have fits' := bmapWrite_fits unwrapped_keeps order.fits safe.1
  have range := order.range all
  have small := order.mapped_length
  have total : n = (w.stream.directData f.agShift).length +
      (w.stream.tableData f.agShift).length := by
    rw [next, mapped, List.length_append]
  have offset : tableOffset w.stream n = (w.stream.tableData f.agShift).length := by
    rw [tableOffset_behind order.shape.range (by omega) (by omega)]
    omega
  have beyond : (w.stream.directData f.agShift).length ≤ n := by omega
  have walked := walkDirect_past order.shape.direct beyond
  rw [if_neg (by omega)] at walked
  have safe' := safe.1
  rw [BmapSafe, walked] at safe'
  have written : bmapWrite f w n = indirectBmap f n 2 w := by rw [bmapWrite, walked]
  rw [written] at fits' ⊢
  have direct_data : ∀ {st : Stream}, st.direct = w.stream.direct →
      st.directData f.agShift = w.stream.directData f.agShift := fun same => by
    rw [directData, same, directData]
  cases done : indirectBmap f n 2 w with
  | mk outcome w' =>
    rw [done] at fits'
    cases outcome with
    | error e =>
      obtain ⟨rfl, full, direct, range', tabled, data⟩ :=
        indirectBmap_fails order.shape.tabled array offset safe.2 done
      have whole : mapped f w'.stream = mapped f w.stream := by
        rw [mapped, mapped, direct_data direct, data]
      refine ⟨⟨⟨direct ▸ order.shape.direct, tabled.tables, direct ▸ order.shape.few,
        tabled.dense, fun _ => direct ▸ all, ?_, range' ▸ order.shape.range⟩, fits',
        fun _ => ?_⟩, fun _ => ?_, ?_, fun nb ok => ?_, fun e failed => ?_⟩
      · rw [range', direct_data direct]
        exact order.shape.within
      · rw [range', direct_data direct]
        exact range
      · rw [range']
        omega
      · exact whole ▸ List.prefix_refl _
      · cases ok
      · cases failed
        exact ⟨rfl, full⟩
    | ok nb =>
      obtain ⟨shape, direct, range', grew⟩ :=
        indirectBmap_grown order.shape order.fits rfl all safe' done
      have data : w'.stream.tableData f.agShift = w.stream.tableData f.agShift ++ [nb] := by
        rcases grew with ⟨_, found⟩ | ⟨_, data⟩
        · rw [offset, List.getElem?_eq_none_iff.mpr le_rfl] at found
          cases found
        · exact data
      have whole : mapped f w'.stream = mapped f w.stream ++ [nb] := by
        rw [mapped, mapped, direct_data direct, data, List.append_assoc]
      refine ⟨⟨shape, fits', fun _ => ?_⟩, fun _ => ?_, ?_, fun b ok => ?_, fun e failed => ?_⟩
      · rw [range', direct_data direct]
        exact range
      · show w'.stream.maxDirectRange ≤ n
        rw [range']
        omega
      · rw [whole]
        exact List.prefix_append _ _
      · cases ok
        rw [whole, next, List.getElem?_append_right le_rfl, Nat.sub_self]
        rfl
      · cases failed

/-- **The block behind the last one is mapped, or no block is free.** -/
theorem grow_next (array : 0 < f.arrayLen) (next : n = (mapped f w.stream).length)
    (safe : SafeNext f w n) :
    Grows f w n (bmapWrite f w n) := by
  rcases Nat.lt_or_ge w.stream.direct.length numDirectBlocks with few | all
  · exact grows_direct order few next safe.1
  · exact grows_table order array (Nat.le_antisymm order.shape.few all) next safe

theorem Grows.extends (next : n = (mapped f w.stream).length)
    (grows : Grows f w n (bmapWrite f w n)) : Extends f w n := by
  have few := order.mapped_length
  unfold Extends
  cases done : bmapWrite f w n with
  | mk outcome w' =>
    rw [done] at grows
    cases outcome with
    | error e => exact grows.fails e rfl
    | ok nb =>
      refine ⟨?_, fun c b small read => ?_⟩
      · rw [grows.order.read (by omega)]
        exact grows.here nb rfl
      · rw [order.read small] at read
        rw [grows.order.read small]
        obtain ⟨more, whole⟩ := grows.longer
        rw [← whole, List.getElem?_append_left (List.getElem?_eq_some_iff.mp read).1, read]

end Order

/-! ## Steps -/

section Steps

variable {f : Format} {x : File} {w : Work} {length : Nat}

/-- A block that is mapped is returned as it is. -/
theorem bmapWrite_mapped {c b : Nat} (read : bmapRead f w.stream c = some b) :
    bmapWrite f w c = (.ok b, w) := by
  rw [bmapRead] at read
  rw [bmapWrite]
  cases walked : walkDirect f w.stream c with
  | hit disk =>
    rw [walked] at read
    cases read
    rfl
  | slot k covered =>
    rw [walked] at read
    cases read
  | full covered =>
    rw [walked] at read
    cases sought : seekTables f w.stream c with
    | hit disk =>
      rw [sought] at read
      cases read
      simp only [indirectBmap, sought]
    | slot t j covered | none t =>
      rw [sought] at read
      cases read

/-- A length whose blocks stay where they are is covered. -/
theorem covers_of_kept {w' : Work} (order : InOrder f w) (order' : InOrder f w')
    (covers : blocksFor f length ≤ (mapped f w.stream).length)
    (kept : ∀ c, c * f.blockSize < length → c < 2 ^ 32 →
      bmapRead f w'.stream c = bmapRead f w.stream c) :
    blocksFor f length ≤ (mapped f w'.stream).length := by
  by_contra less
  have below := Nat.lt_of_not_le less
  have few := order.mapped_length
  have small : (mapped f w'.stream).length < 2 ^ 32 := by omega
  have same := kept _ (lt_blocksFor.mp below) small
  rw [order.read small, order'.read small, List.getElem?_eq_none_iff.mpr le_rfl] at same
  have beyond := List.getElem?_eq_none_iff.mp same.symm
  omega

theorem Ready.truncate (ready : Ready f x) (short : length ≤ x.size)
    (safe : SafeCut f x.stream length) :
    Ready f ⟨⟨bfreeAll f x.space (truncateStream f x.stream length).2,
      (truncateStream f x.stream length).1⟩, length⟩ := by
  have range : (truncateStream f x.stream length).1.maxDirectRange = x.stream.maxDirectRange :=
    truncateStream_range length
  have shape := truncateStream_shape ready.shape length
  have fits := truncateStream_fits unwrapped_keeps ready.fits length
  have read : ∀ c, c * f.blockSize < length → c < 2 ^ 32 →
      bmapRead f (truncateStream f x.stream length).1 c = bmapRead f x.stream c :=
    fun c below small => truncateStream_read ready.shape ready.fits rfl below small
  have dropped : (truncateStream f x.stream length).1.tables ≠ [] →
      x.stream.maxDirectRange * f.blockSize ≤ length := by
    intro some
    by_contra long
    exact some (truncateStream_short (Nat.le_of_not_le long)).2
  have exact : (truncateStream f x.stream length).1.direct.length = numDirectBlocks →
      ((truncateStream f x.stream length).1.directData f.agShift).length =
        x.stream.maxDirectRange := by
    rw [truncateStream_data ready.shape length, truncateStream_direct]
    intro all
    have fewer := (cutRuns_length (f := f) length ready.shape.direct 0).1
    have all' : x.stream.direct.length = numDirectBlocks :=
      Nat.le_antisymm ready.shape.few (by omega)
    rcases safe all' with dropped | whole
    · -- the twelfth run was dropped: there are not twelve any more
      have some : x.stream.direct ≠ [] := by
        intro none
        rw [none] at all'
        cases all'
      have less := cutRuns_fewer ready.shape.direct some dropped
      omega
    · rw [List.take_of_length_le whole]
      exact ready.range all'
  generalize truncateStream f x.stream length = cut at *
  have order : InOrder f ⟨bfreeAll f x.space cut.2, cut.1⟩ :=
    ⟨shape, fits, fun all => (exact all).trans range.symm⟩
  refine ⟨order, fun some => ?_, ?_, Nat.lt_of_le_of_lt short ready.small⟩
  · rw [range]
    exact dropped some
  · have before : blocksFor f length ≤ (mapped f x.stream).length := by
      refine Nat.le_trans (blocksFor_le.mpr (Nat.le_trans short ?_)) ready.covers
      exact blocksFor_le.mp le_rfl
    exact covers_of_kept ready.toInOrder order before read

theorem Ready.trim (ready : Ready f x) (safe : SafeCut f x.stream x.size) :
    Ready f ⟨⟨bfreeAll f x.space (trimStream f x.stream x.size).2,
      (trimStream f x.stream x.size).1⟩, x.size⟩ := by
  have shape := trimStream_shape ready.shape ready.tables
  have fits := trimStream_fits unwrapped_keeps ready.fits x.size
  have read : ∀ c, c * f.blockSize < x.size → c < 2 ^ 32 →
      bmapRead f (trimStream f x.stream x.size).1 c = bmapRead f x.stream c :=
    fun c below _ => trimStream_read ready.shape ready.tables below
  have cases := trimStream_cases (f := f) ready.shape.direct x.size
  generalize trimStream f x.stream x.size = cut at *
  have order : InOrder f ⟨bfreeAll f x.space cut.2, cut.1⟩ := by
    refine ⟨shape, fits, ?_⟩
    intro all
    rcases cases with same | ⟨runs, trimmed, beyond, _, fewer, part, _⟩
    · rw [same] at all ⊢
      exact ready.range all
    · rw [trimmed] at all
      have count := Nat.le_antisymm fewer (Nat.le_trans ready.shape.few (Nat.le_of_eq all.symm))
      rcases safe (count.symm.trans all) with dropped | whole
      · omega
      · omega
  refine ⟨order, ?_, covers_of_kept ready.toInOrder order ready.covers read, ready.small⟩
  rcases cases with same | ⟨runs, trimmed, _⟩
  · rw [same]
    exact ready.tables
  · rw [trimmed]
    exact ready.tables

/-- The block an append writes is mapped, or the next one. -/
theorem Ready.block_le (ready : Ready f x) : x.size / f.blockSize ≤ (mapped f x.stream).length := by
  refine Nat.le_trans ?_ ready.covers
  have low := Nat.div_mul_le_self x.size f.blockSize
  by_contra more
  have cover : x.size ≤ blocksFor f x.size * f.blockSize := blocksFor_le.mp le_rfl
  have scaled := Nat.mul_lt_mul_of_pos_right (Nat.lt_of_not_le more) (blockSize_pos f)
  omega

theorem Ready.append (ready : Ready f x) (array : 0 < f.arrayLen) {bytes : Nat}
    (fit : x.size % f.blockSize + bytes ≤ f.blockSize) (small : x.size + bytes < 2 ^ 32)
    (safe : SafeNext f x.toWork (x.size / f.blockSize)) {outcome : Except Errno Nat}
    (done : bmapWrite f x.toWork (x.size / f.blockSize) = (outcome, w)) :
    Ready f ⟨w, match outcome with | .ok _ => x.size + bytes | .error _ => x.size⟩ := by
  have parts := Nat.div_add_mod x.size f.blockSize
  have ends : x.size + bytes ≤ (x.size / f.blockSize + 1) * f.blockSize := by
    rw [Nat.add_mul, Nat.mul_comm]
    omega
  rcases Nat.lt_or_eq_of_le ready.block_le with below | next
  · -- within the blocks that are there already
    have tiny : x.size / f.blockSize < 2 ^ 32 :=
      Nat.lt_of_le_of_lt (Nat.div_le_self _ _) ready.small
    have read := ready.toInOrder.read tiny
    rw [List.getElem?_eq_getElem below] at read
    cases (bmapWrite_mapped read).symm.trans done
    refine ⟨ready.toInOrder, fun some => Nat.le_trans (ready.tables some) (Nat.le_add_right _ _),
      ?_, small⟩
    exact Nat.le_trans (blocksFor_le.mpr ends) below
  · have grows := grow_next ready.toInOrder array next safe
    rw [done] at grows
    have reached : ∀ {size : Nat}, x.size ≤ size → w.stream.tables ≠ [] →
        w.stream.maxDirectRange * f.blockSize ≤ size := by
      intro size more some
      refine Nat.le_trans (Nat.mul_le_mul_right _ (grows.tables some)) (Nat.le_trans ?_ more)
      exact Nat.div_mul_le_self _ _
    cases outcome with
    | error e =>
      refine ⟨grows.order, reached le_rfl, ?_, ready.small⟩
      exact Nat.le_trans ready.covers grows.longer.length_le
    | ok nb =>
      refine ⟨grows.order, reached (Nat.le_add_right _ _), ?_, small⟩
      have here := (List.getElem?_eq_some_iff.mp (grows.here nb rfl)).1
      exact Nat.le_trans (blocksFor_le.mpr ends) here

theorem step_ready (array : 0 < f.arrayLen) {x' : File} {l : Label} (ready : Ready f x)
    (safe : SafeLabel f x l) (taken : step f x l = some x') : Ready f x' := by
  cases l with
  | append bytes =>
    rw [step, Option.ite_none_left_eq_some] at taken
    obtain ⟨fit, taken⟩ := taken
    push Not at fit
    split at taken
    all_goals
      rename_i w done
      cases taken
      exact ready.append array fit.2.1 fit.2.2 safe done
  | truncate length =>
    rw [step, unless_eq_some] at taken
    obtain ⟨short, rfl⟩ := taken
    exact ready.truncate (Nat.le_of_not_lt short) safe
  | trim =>
    rw [step] at taken
    split at taken
    · cases taken
      exact ready
    · cases taken
      exact ready.trim safe
  | foreign s =>
    rw [step, when_eq_some] at taken
    obtain ⟨kept, rfl⟩ := taken
    have fits := ready.fits
    refine ⟨⟨ready.shape, ⟨fits.runs, fits.nodup, fits.inside, kept.2, fits.apart, ?_⟩,
      ready.range⟩, ready.tables, ready.covers, ready.small⟩
    rintro b rfl
    exact kept.1

structure Created (f : Format) (x : File) : Prop where
  stream : x.stream = .empty
  size : x.size = 0
  super : f.used x.space 0 = true

theorem Created.ready (created : Created f x) : Ready f x := by
  obtain ⟨⟨space, stream⟩, size⟩ := x
  obtain ⟨rfl, rfl, super⟩ := created
  have few : ([] : List Run).length ≤ numDirectBlocks := by decide
  have low : numDirectBlocks < 2 ^ 31 := by decide
  have tiny : 0 < 2 ^ 32 := by decide
  refine ⟨⟨⟨?_, ?_, few, trivial, fun some => absurd rfl some, Nat.zero_le _, low⟩,
    ⟨⟨?_, trivial, trivial, ?_⟩, List.nodup_nil, ?_, ?_, ?_, ?_⟩, nofun⟩,
    fun some => absurd rfl some, blocksFor_le.mpr (Nat.zero_le _), tiny⟩
  · intro r member
    cases member
  · intro runs member
    cases member
  · intro r member
    trivial
  · intro runs member
    cases member
  · intro b member
    cases member
  · intro b member
    cases member
  · intro b member
    cases member
  · rintro b rfl
    exact super

/-- **Appending stays possible**: after any history of safe steps, asking for the block behind the
last one maps it, or fails with `ENOSPC` on a volume without a free block. -/
theorem appends_succeed {x₀ : File} {ls : List Label} {n : Nat} (size : 10 ≤ f.bits)
    (created : Created f x₀) (safe : Guarded (step f) (SafeLabel f) x₀ ls)
    (ran : run (step f) x₀ ls = some x) (next : IsNext f x.stream n) (small : n < 2 ^ 32)
    (safeNext : SafeNext f x.toWork n) : Extends f x.toWork n := by
  have array : 0 < f.arrayLen := by
    have large : 2 ^ 10 ≤ 2 ^ f.bits := Nat.pow_le_pow_right (by decide) size
    rw [Format.arrayLen, Format.blockSize]
    omega
  have ready : Ready f x :=
    run_inv (fun _ _ _ ready safe taken => step_ready array ready safe taken) created.ready safe ran
  have atEnd := ready.toInOrder.next_eq next small
  exact (grow_next ready.toInOrder array atEnd safeNext).extends ready.toInOrder atEnd

end Steps

/-! ## Poles -/

section Poles

variable {f : Format}

/-- The last direct run cannot be extended, and the next one begins with block `n`. -/
theorem safeNext_window {w : Work} {n k : Nat} (walked : walkDirect f w.stream n = .slot k n)
    (few : k < numDirectBlocks)
    (stuck : (w.stream.direct[k - 1]?.bind fun r => takeNext f w.space r r.len.toNat) = none)
    (double : w.stream.doubleIndirect.len = 0) : SafeNext f w n := by
  refine ⟨?_, fun t sought some => absurd double some⟩
  rw [BmapSafe, walked]
  show GrowSafe f Unwrapped n (n + 1 - n) w k _ n
  rw [Nat.add_sub_cancel_left, GrowSafe]
  split
  · rename_i found
    split at found
    · obtain ⟨r, here, taken⟩ := Option.bind_eq_some_iff.mp found
      rw [here] at taken stuck
      cases taken.symm.trans stuck
    · cases found
  · rw [if_neg few.not_ge]
    intro s nb wlen window beyond
    have positive := (ballocContig_takes (by decide) window).1
    omega

/-- Where the direct runs end and no table is begun, nothing is mapped. -/
theorem isNext_direct {st : Stream} {n : Nat} (tables : st.tables = [])
    (length : (st.directData f.agShift).length = n)
    (last : n = 0 ∨ bmapRead f st (n - 1) ≠ none) : IsNext f st n := by
  refine ⟨fun c _ read => ?_, last⟩
  by_contra beyond
  refine read (ReadBack.bmapRead_none (by omega) ?_)
  rw [tableData, tables]
  exact Nat.zero_le _

end Poles

def oneGroup : Format where
  agShift := 6
  numBlocks := 64
  numAgs := 1
  blocksPerAg := 1
  logBlocks := { allocationGroup := 0, start := 2, len := 1 }
  shift_le := by decide
  numBlocks_le := by decide
  bitmap_below_log := by decide
  log_inside := by decide
  bits := 10
  group_bits := by decide

/-- Only the blocks 7, 9, … 27, and the pair 29, 30 are free. -/
def scattered : File where
  space :=
    { bitmap := fun off => !(off % 2 == 1 && decide (7 ≤ off) && decide (off ≤ 29) || off == 30)
      nextFree := 5
      usedBlocks := 51 }
  stream := .empty
  size := 0

theorem scattered_created : Created oneGroup scattered := ⟨rfl, rfl, rfl⟩

/-- The file is written to, emptied and written to again. -/
def rewritten : List Label := [.append 600, .truncate 0, .append 600]

/-- There are `n` runs of one block, and the block behind the last one is not free. -/
def stopTest (n : Nat) (x : File) : Bool :=
  n < numDirectBlocks && walkDirect oneGroup x.stream n == .slot n n &&
    (x.stream.direct[n - 1]?.bind fun r => takeNext oneGroup x.space r r.len.toNat).isNone &&
    x.stream.doubleIndirect.len == 0

theorem stopTest_safe {n : Nat} {x : File} (stops : stopTest n x = true) :
    SafeNext oneGroup x.toWork n := by
  simp only [stopTest, Bool.and_eq_true, beq_iff_eq, Option.isNone_iff_eq_none,
    decide_eq_true_eq] at stops
  obtain ⟨⟨⟨few, walked⟩, stuck⟩, double⟩ := stops
  exact safeNext_window walked few stuck double

def safeTest (x : File) : Label → Bool
  | .append _ => stopTest (x.size / oneGroup.blockSize) x
  | .truncate _ => x.stream.direct.length != numDirectBlocks
  | _ => false

theorem rewritten_safe : Guarded (step oneGroup) (SafeLabel oneGroup) scattered rewritten := by
  refine Guarded.of_test (fun x a (safe : safeTest x a = true) => ?_) (by decide +kernel)
  cases a with
  | append count => exact stopTest_safe safe
  | truncate length => exact fun all => absurd all (bne_iff_ne.mp safe)
  | trim => cases safe
  | foreign s => cases safe

def oneBlockTest (x : File) : Bool :=
  stopTest 1 x && x.stream.tables.isEmpty && (bmapRead oneGroup x.stream 0).isSome &&
    (x.stream.directData oneGroup.agShift).length == 1

theorem rewritten_ends : (run (step oneGroup) scattered rewritten).any oneBlockTest = true := by
  decide +kernel

theorem appends_succeed_rewritten :
    ∃ x, run (step oneGroup) scattered rewritten = some x ∧ Extends oneGroup x.toWork 1 := by
  obtain ⟨x, ran, ends⟩ := (Option.any_eq_true _ _).mp rewritten_ends
  simp only [oneBlockTest, Bool.and_eq_true, List.isEmpty_iff, beq_iff_eq] at ends
  obtain ⟨⟨⟨stops, tables⟩, last⟩, length⟩ := ends
  exact ⟨x, ran, appends_succeed (by decide) scattered_created rewritten_safe ran
    (isNext_direct tables length (.inr (Option.isSome_iff_ne_none.mp last))) (by decide)
    (stopTest_safe stops)⟩

/-- Thirteen blocks in twelve runs, the last one cut off again. -/
def cutLast : List Label := List.replicate 13 (.append 1024) ++ [.truncate (12 * 1024)]

def stuckTest (x : File) : Bool :=
  x.stream.tables.isEmpty && (x.stream.directData oneGroup.agShift).length == 12 &&
    (bmapRead oneGroup x.stream 11).isSome &&
      match (bmapWrite oneGroup x.toWork 12).1 with
      | .error e => e == .eio
      | .ok _ => false

theorem cutLast_stuck : (run (step oneGroup) scattered cutLast).any stuckTest = true := by
  decide +kernel

theorem stuckTest_sound {x : File} (stuck : stuckTest x = true) :
    IsNext oneGroup x.stream 12 ∧ ¬ Extends oneGroup x.toWork 12 := by
  simp only [stuckTest, Bool.and_eq_true, List.isEmpty_iff, beq_iff_eq] at stuck
  obtain ⟨⟨⟨tables, length⟩, last⟩, failed⟩ := stuck
  refine ⟨isNext_direct tables length (.inr fun none => ?_), fun does => ?_⟩
  · rw [none] at last
    cases last
  · unfold Extends at does
    split at does
    · rename_i nb w' done
      rw [done] at failed
      cases failed
    · rename_i e w' done
      rw [done] at failed
      obtain ⟨rfl, _⟩ := does
      cases failed

/-- **An append fails with `EIO` on a volume with free blocks**: the file has twelve runs, and the
last one was cut from two blocks to one. -/
theorem append_fails :
    Created oneGroup scattered ∧ ∃ x, run (step oneGroup) scattered cutLast = some x ∧
      IsNext oneGroup x.stream 12 ∧ ¬ Extends oneGroup x.toWork 12 := by
  refine ⟨scattered_created, ?_⟩
  obtain ⟨x, ran, stuck⟩ := (Option.any_eq_true _ _).mp cutLast_stuck
  exact ⟨x, ran, stuckTest_sound stuck⟩

end Argentum.Agfs.Append
