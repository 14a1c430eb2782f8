/-
# Agfs.StreamMap — which disk block a file block is in

A stream read as two lists: the disk blocks of its direct runs in file order
(`directData`) and those of the runs in its tables (`tableData`). On a stream of the
right `Shape` — used slots first, in every array — a lookup is a lookup in these lists
(`bmapRead_eq`), so no two file blocks share a disk block (`bmapRead_inj`).

`bmapWrite_grown` is what a call that grows the stream does: the block asked for is mapped to
the block returned, nothing that was mapped moves, and what else becomes mapped are the
`opened` blocks from the one asked for on. A call on a stream with a free direct slot has to
be for the first block that is not mapped: `agfs_bmap` returns the first block of the window
it appends.
-/
import Argentum.Agfs.StreamBlocks

namespace Argentum.Agfs

open List
open Run (make extend)

/-- The disk blocks of a list of runs. -/
def runData (agShift : Nat) (runs : List Run) : List Nat := runs.flatMap (·.blocks agShift)

namespace Stream

variable (agShift : Nat) (st : Stream)

/-- The disk blocks of the direct runs, in file order. -/
def directData : List Nat := runData agShift st.direct

/-- The disk blocks of the runs in the tables, in file order. -/
def tableData : List Nat := runData agShift st.tables.flatten

end Stream

/-- All of the runs are in use. -/
abbrev Used (runs : List Run) : Prop := ∀ r ∈ runs, r.isEmpty = false

/-- The arrays are filled from the first slot on: only behind a full one is another used. -/
def Dense (size : Nat) : List (List Run) → Prop
  | [] => True
  | runs :: rest =>
    runs.length ≤ size ∧ (runs.length < size → ∀ later ∈ rest, later = []) ∧ Dense size rest

/-- The stream is one that the walks read as it is meant. -/
structure Shape (f : Format) (st : Stream) : Prop where
  direct : ∀ r ∈ st.direct, r.isEmpty = false
  tables : ∀ runs ∈ st.tables, ∀ r ∈ runs, r.isEmpty = false
  few : st.direct.length ≤ numDirectBlocks
  dense : Dense f.arrayLen st.tables
  /-- Tables are used only behind twelve direct runs. -/
  behind : st.tables ≠ [] → st.direct.length = numDirectBlocks
  within : (st.directData f.agShift).length ≤ st.maxDirectRange
  range : st.maxDirectRange < 2 ^ 31

/-- The part of it that is about the tables. -/
structure Tabled (f : Format) (st : Stream) : Prop where
  tables : ∀ runs ∈ st.tables, ∀ r ∈ runs, r.isEmpty = false
  dense : Dense f.arrayLen st.tables

theorem Shape.tabled {f : Format} {st : Stream} (shape : Shape f st) : Tabled f st :=
  ⟨shape.tables, shape.dense⟩

/-! ## Walks over runs -/

section Walks

variable {agShift : Nat} {size : Nat} {tables : List (List Run)} {offset : Nat}

@[simp] theorem runData_nil : runData agShift [] = [] := rfl

@[simp] theorem runData_cons (r : Run) (runs : List Run) :
    runData agShift (r :: runs) = r.blocks agShift ++ runData agShift runs := flatMap_cons

@[simp] theorem runData_append (runs runs' : List Run) :
    runData agShift (runs ++ runs') = runData agShift runs ++ runData agShift runs' :=
  flatMap_append

@[simp] theorem blocks_length (r : Run) : (r.blocks agShift).length = r.len.toNat :=
  length_range'

theorem blocks_getElem? (r : Run) {k : Nat} (below : k < r.len.toNat) :
    (r.blocks agShift)[k]? = some (r.base agShift + k) := by
  rw [Run.blocks, List.getElem?_range' below, Nat.one_mul]

/-- A walk over used slots finds the block in the data, or ends behind it. -/
theorem walk_eq {block : Nat} {runs : List Run} (used : Used runs)
    (k covered : Nat) (reached : covered ≤ block) :
    walk agShift size block runs k covered =
      match (runData agShift runs)[block - covered]? with
      | some disk => .hit disk
      | none =>
        if k + runs.length < size then
          .slot (k + runs.length) (covered + (runData agShift runs).length)
        else .full (covered + (runData agShift runs).length) := by
  induction runs generalizing k covered with
  | nil => simp [walk]
  | cons r rest ih =>
    have here := used r mem_cons_self
    rw [walk, here, if_neg Bool.false_ne_true]
    split
    · have inside : block - covered < r.len.toNat := by omega
      rw [runData_cons, List.getElem?_append_left (by simpa using inside), blocks_getElem? r inside]
    · rw [ih (forall_mem_of_forall_mem_cons used) (k + 1) (covered + r.len.toNat)
        (by omega), runData_cons, List.getElem?_append_right (by rw [blocks_length]; omega),
        Nat.sub_sub]
      simp only [length_cons, length_append, blocks_length, ← Nat.add_assoc,
        Nat.add_right_comm k _ 1]

theorem flatten_of_empty (empty : ∀ runs ∈ tables, runs = []) : tables.flatten = [] := by
  rw [flatten_eq_nil_iff]
  exact empty

section

variable (used : ∀ runs ∈ tables, Used runs) (dense : Dense size tables) (t covered : Nat)
  (reached : covered ≤ offset)

include used dense reached

/-- The walk over the tables finds the block in their data. -/
theorem seek_hit {disk : Nat}
    (found : (runData agShift tables.flatten)[offset - covered]? = some disk) :
    seek agShift size offset tables t covered = .hit disk := by
  induction tables generalizing t covered with
  | nil => simp at found
  | cons runs rest ih =>
    obtain ⟨fits, rest_empty, dense⟩ := dense
    rw [seek, walk_eq (used runs mem_cons_self) 0 covered reached]
    rw [flatten_cons, runData_append] at found
    cases here : (runData agShift runs)[offset - covered]? with
    | some found' =>
      rw [List.getElem?_append_left (List.getElem?_eq_some_iff.mp here).1, here] at found
      cases found
      rfl
    | none =>
      have beyond := List.getElem?_eq_none_iff.mp here
      rw [List.getElem?_append_right beyond] at found
      have full : ¬ 0 + runs.length < size := by
        intro short
        rw [flatten_of_empty (rest_empty (by omega))] at found
        simp at found
      simp only [if_neg full]
      exact ih (forall_mem_of_forall_mem_cons used) dense _ _ (by omega)
        (by rw [← found, Nat.sub_sub])

/-- Beyond the data, it ends at the first free slot, with only empty tables behind it, or behind
the last table. -/
theorem seek_past (beyond : (runData agShift tables.flatten)[offset - covered]? = none) :
    (∃ full runs rest, tables = full ++ runs :: rest ∧ (∀ l ∈ full, l.length = size) ∧
        runs.length < size ∧ (∀ later ∈ rest, later = []) ∧
        seek agShift size offset tables t covered =
          .slot (t + full.length) runs.length (covered + (runData agShift tables.flatten).length)) ∨
      ((∀ runs ∈ tables, runs.length = size) ∧
        seek agShift size offset tables t covered = .none (t + tables.length)) := by
  induction tables generalizing t covered with
  | nil => exact .inr ⟨by simp, rfl⟩
  | cons runs rest ih =>
    obtain ⟨fits, rest_empty, dense⟩ := dense
    rw [flatten_cons, runData_append, List.getElem?_eq_none_iff, length_append] at beyond
    have here : (runData agShift runs)[offset - covered]? = none :=
      List.getElem?_eq_none_iff.mpr (by omega)
    have found : walk agShift size offset runs 0 covered = _ :=
      walk_eq (used runs mem_cons_self) 0 covered reached
    rw [here] at found
    by_cases short : runs.length < size
    · refine .inl ⟨[], runs, rest, rfl, by simp, short, rest_empty short, ?_⟩
      simp only [Nat.zero_add, if_pos short] at found
      rw [seek, found]
      simp [flatten_of_empty (rest_empty short)]
    · simp only [Nat.zero_add, if_neg short] at found
      have later := ih (forall_mem_of_forall_mem_cons used) dense (t + 1)
        (covered + (runData agShift runs).length) (by omega)
        (List.getElem?_eq_none_iff.mpr (by omega))
      rw [seek, found]
      have whole : runs.length = size := by omega
      rcases later with ⟨full, free, others, split, before, room, empty, ends⟩ | ⟨allFull, ends⟩
      · refine .inl ⟨runs :: full, free, others, by rw [split, cons_append],
          forall_mem_cons.mpr ⟨whole, before⟩, room, empty, ?_⟩
        simp only [ends, length_cons, flatten_cons, runData_append, length_append]
        congr 1 <;> omega
      · refine .inr ⟨forall_mem_cons.mpr ⟨whole, allFull⟩, ?_⟩
        simp only [ends, length_cons]
        congr 1
        omega

end

end Walks

/-! ## Lookups -/

open Agfs.Stream

section Lookup

variable {f : Format} {st : Stream} {block c d : Nat}

theorem seek_cases (tabled : Tabled f st) (offset : Nat) :
    (∃ disk, (st.tableData f.agShift)[offset]? = some disk ∧
        seek f.agShift f.arrayLen offset st.tables 0 0 = .hit disk) ∨
      ((st.tableData f.agShift)[offset]? = none ∧
        ((∃ full runs rest, st.tables = full ++ runs :: rest ∧
            (∀ l ∈ full, l.length = f.arrayLen) ∧ runs.length < f.arrayLen ∧
            (∀ later ∈ rest, later = []) ∧
            seek f.agShift f.arrayLen offset st.tables 0 0 =
              .slot full.length runs.length (st.tableData f.agShift).length) ∨
          ((∀ runs ∈ st.tables, runs.length = f.arrayLen) ∧
            seek f.agShift f.arrayLen offset st.tables 0 0 = .none st.tables.length))) := by
  cases found : (st.tableData f.agShift)[offset]? with
  | some disk =>
    exact .inl ⟨disk, rfl, seek_hit tabled.tables tabled.dense 0 0 (Nat.zero_le offset) found⟩
  | none =>
    have past := seek_past tabled.tables tabled.dense 0 0 (Nat.zero_le offset) found
    simp only [Nat.zero_add] at past
    exact .inr ⟨rfl, past⟩

section

variable (used : Used st.direct)

include used

theorem walkDirect_hit {disk : Nat} (found : (st.directData f.agShift)[block]? = some disk) :
    walkDirect f st block = .hit disk := by
  rw [directData] at found
  rw [walkDirect, walk_eq used 0 0 (Nat.zero_le _), Nat.sub_zero, found]

theorem walkDirect_past (beyond : (st.directData f.agShift).length ≤ block) :
    walkDirect f st block = if st.direct.length < numDirectBlocks then
        .slot st.direct.length (st.directData f.agShift).length
      else .full (st.directData f.agShift).length := by
  rw [directData, ← List.getElem?_eq_none_iff] at beyond
  rw [walkDirect, walk_eq used 0 0 (Nat.zero_le _), Nat.sub_zero, beyond]
  simp only [Nat.zero_add, directData]

/-- A lookup is a lookup in the data. -/
theorem bmapRead_data (tabled : Tabled f st) (block : Nat) :
    bmapRead f st block =
      if block < (st.directData f.agShift).length then (st.directData f.agShift)[block]?
      else if st.direct.length < numDirectBlocks then none
      else (st.tableData f.agShift)[tableOffset st block]? := by
  rw [bmapRead]
  by_cases inside : block < (st.directData f.agShift).length
  · have here := List.getElem?_eq_getElem inside
    rw [if_pos inside, walkDirect_hit used here, here]
  · rw [if_neg inside, walkDirect_past used (Nat.le_of_not_lt inside)]
    by_cases more : st.direct.length < numDirectBlocks
    · simp only [if_pos more]
    · simp only [if_neg more, seekTables]
      rcases seek_cases tabled (tableOffset st block) with
        ⟨disk, found, ends⟩ | ⟨found, ⟨_, _, _, _, _, _, _, ends⟩ | ⟨_, ends⟩⟩ <;> rw [found, ends]

end

theorem bmapRead_eq (shape : Shape f st) (block : Nat) :
    bmapRead f st block =
      if block < (st.directData f.agShift).length then (st.directData f.agShift)[block]?
      else if st.direct.length < numDirectBlocks then none
      else (st.tableData f.agShift)[tableOffset st block]? :=
  bmapRead_data shape.direct shape.tabled block

theorem tableOffset_inj (small : c < 2 ^ 32) (small' : d < 2 ^ 32)
    (same : tableOffset st c = tableOffset st d) : c = d := by
  unfold tableOffset at same
  omega

variable {Q : Run → Prop} {others : Nat → Prop} {s : Space} {b : Nat}

theorem data_nodup (fits : Fits f Q others ⟨s, st⟩) :
    (st.directData f.agShift ++ st.tableData f.agShift).Nodup := by
  refine fits.nodup.sublist ?_
  show List.Sublist _ (st.direct.flatMap _ ++ _ ++ _ ++ _ ++ _)
  simp only [append_assoc]
  refine List.Sublist.append (List.Sublist.refl _) ?_
  simp only [← append_assoc]
  exact sublist_append_right _ _

theorem mem_blocks_of_direct (member : b ∈ st.directData f.agShift) : b ∈ st.blocks f.agShift := by
  simp only [blocks, append_assoc]
  exact mem_append_left _ member

theorem mem_blocks_of_table (member : b ∈ st.tableData f.agShift) :
    b ∈ st.blocks f.agShift := mem_append_right _ member

section

variable (fits : Fits f Q others ⟨s, st⟩) (super : others 0)

include fits super

/-- A list of different blocks of the volume is shorter than `2 ^ 31`: block 0 is never held. -/
theorem nodup_length_lt {l : List Nat} (nodup : l.Nodup) (held : ∀ b ∈ l, b ∈ st.blocks f.agShift) :
    l.length < 2 ^ 31 := by
  have sub : l.Subperm (List.range' 1 (f.numBlocks - 1)) := by
    refine subperm_of_subset nodup fun b member => ?_
    have inside := fits.inside b (held b member)
    have nonzero : b ≠ 0 := by
      rintro rfl
      exact fits.apart 0 (held 0 member) super
    rw [mem_range'_1]
    omega
  have length := sub.length_le
  have most := f.numBlocks_le
  rw [length_range'] at length
  omega

theorem tableData_length : (st.tableData f.agShift).length < 2 ^ 31 :=
  nodup_length_lt fits super (nodup_append.mp (data_nodup fits)).2.1
    fun _ => mem_blocks_of_table

theorem directData_length : (st.directData f.agShift).length < 2 ^ 31 :=
  nodup_length_lt fits super (nodup_append.mp (data_nodup fits)).1
    fun _ => mem_blocks_of_direct

end

/-- **No two file blocks are in one disk block.** -/
theorem bmapRead_inj (shape : Shape f st) (fits : Fits f Q others ⟨s, st⟩)
    (small : c < 2 ^ 32) (small' : d < 2 ^ 32) (first : bmapRead f st c = some b)
    (second : bmapRead f st d = some b) : c = d := by
  obtain ⟨nodupD, nodupT, apart⟩ := nodup_append.mp (data_nodup fits)
  have index : ∀ {l : List Nat} {i j : Nat}, l.Nodup → l[i]? = some b → l[j]? = some b → i = j := by
    intro l i j nodup atI atJ
    obtain ⟨hi, eqI⟩ := List.getElem?_eq_some_iff.mp atI
    obtain ⟨hj, eqJ⟩ := List.getElem?_eq_some_iff.mp atJ
    exact (List.Nodup.getElem_inj_iff nodup).mp (eqI.trans eqJ.symm)
  rw [bmapRead_eq shape] at first second
  split at first
  · split at second
    · exact index nodupD first second
    · split at second
      · cases second
      · exact absurd rfl (apart b (mem_of_getElem? first) b (mem_of_getElem? second))
  · split at first
    · cases first
    · split at second
      · exact absurd rfl (apart b (mem_of_getElem? second) b (mem_of_getElem? first))
      · exact tableOffset_inj small small' (index nodupT first second)

end Lookup

/-! ## Growing -/

/-- The run can be given one more block. -/
def Unwrapped (r : Run) : Prop := r.len.toNat + 1 < 2 ^ 16

/-- How many file blocks a call opens that has to grow the stream: one, if it grows a table or
the last direct run, and else a window. -/
def opened (f : Format) (w : Work) : Nat :=
  if numDirectBlocks ≤ w.stream.direct.length then 1
  else if (w.stream.direct.getLast?.bind fun r => takeNext f w.space r r.len.toNat).isSome then 1
  else match w.space.ballocContig f.toGeometry f.bpb delallocWindow with
    | .ok (_, _, wlen) => wlen
    | .error _ => 0

section Grow

variable {f : Format} {r : Run} {runs : List Run} {b fuel size t : Nat} {bs : List Nat}
  {s s' : Space} {tables : List (List Run)}

theorem unwrapped_keeps : Keeps f Unwrapped fun _ => True :=
  ⟨trivial, fun _ _ _ _ _ _ => trivial, fun _ _ _ => trivial, fun _ _ _ _ => trivial,
    fun _ unwrapped => unwrapped⟩

theorem isEmpty_eq_false :
    r.isEmpty = false ↔ r.len ≠ 0 ∧ ¬ (r.allocationGroup = 0 ∧ r.start = 0) := by
  simp [Run.isEmpty]

theorem make_used {first count : Nat} (nonzero : first ≠ 0) (inside : first < f.numBlocks)
    (positive : 0 < count) (few : count ≤ delallocWindow) :
    (make f.agShift first count).isEmpty = false := by
  have most := f.numBlocks_le
  have window : delallocWindow = 256 := rfl
  have length : (make f.agShift first count).len.toNat = count := make_len (by omega)
  have base : (make f.agShift first count).base f.agShift = first :=
    make_base f.shift_le (by omega)
  rw [isEmpty_eq_false]
  constructor
  · intro none
    rw [none] at length
    exact absurd length.symm (Nat.pos_iff_ne_zero.mp positive)
  · rintro ⟨group, start⟩
    simp only [Run.base, runAbs, group, start] at base
    exact nonzero (by simpa using base.symm)

theorem extend_used (used : r.isEmpty = false) (unwrapped : Unwrapped r) :
    r.extend.isEmpty = false := by
  rw [isEmpty_eq_false] at used ⊢
  refine ⟨fun none => ?_, used.2⟩
  have length := extend_len unwrapped
  rw [none] at length
  cases length

theorem cut_used {keep : Nat} (used : r.isEmpty = false) (some : keep ≠ 0)
    (most : keep ≤ r.len.toNat) : (r.cut keep).isEmpty = false := by
  rw [isEmpty_eq_false] at used ⊢
  refine ⟨fun none => ?_, used.2⟩
  have length := cut_len most
  rw [none] at length
  exact some length.symm

theorem modify_behind {α : Type} (front : List α) (x : α) (rest : List α) (g : α → α) :
    (front ++ x :: rest).modify front.length g = front ++ g x :: rest := by
  induction front with
  | nil => rfl
  | cons y front ih => simp [ih]

theorem dense_of_empty (empty : ∀ runs ∈ tables, runs = []) : Dense size tables := by
  induction tables with
  | nil => trivial
  | cons runs rest ih =>
    have later := ih (forall_mem_of_forall_mem_cons empty)
    refine ⟨?_, fun _ l member => empty l (mem_cons_of_mem _ member), later⟩
    rw [empty runs mem_cons_self]
    exact Nat.zero_le _

theorem dense_append {front : List (List Run)}
    (full : ∀ runs ∈ front, runs.length = size) (dense : Dense size tables) :
    Dense size (front ++ tables) := by
  induction front with
  | nil => exact dense
  | cons runs front ih =>
    have whole := full runs mem_cons_self
    exact ⟨by omega, fun short => absurd short (by omega), ih (forall_mem_of_forall_mem_cons full)⟩

/-- The last run of an array that is extended by the block behind it. -/
theorem runData_extend {agShift : Nat}
    (last : runs[runs.length - 1]? = some r) (unwrapped : Unwrapped r) :
    runData agShift (runs.modify (runs.length - 1) extend) =
      runData agShift runs ++ [r.base agShift + r.len.toNat] := by
  rcases eq_nil_or_concat runs with rfl | ⟨front, r', rfl⟩
  · cases last
  rw [concat_eq_append] at last ⊢
  have len : (front ++ [r']).length - 1 = front.length := by simp
  rw [len] at last ⊢
  rw [List.getElem?_concat_length] at last
  cases last
  rw [modify_behind, runData_append, runData_cons, extend_blocks unwrapped]
  simp

theorem mem_extended {k : Nat} {q : Run} (here : runs[k]? = some r)
    (unwrapped : Unwrapped r) (used : Used runs)
    (member : q ∈ runs.modify k extend) : q.isEmpty = false := by
  rcases mem_modify here member with rfl | old
  · exact extend_used (used r (mem_of_getElem? here)) unwrapped
  · exact used q old

variable {Q : Run → Prop} {others : Nat → Prop} {w w' : Work} {block nb : Nat}

/-- A free block is not the superblock's. -/
theorem Takes.fresh (takes : Takes f s s' bs)
    (super : f.used s 0 = true) (member : b ∈ bs) : b ≠ 0 := by
  rintro rfl
  exact absurd (super.symm.trans (takes.free 0 member)) (by decide)

theorem Takes.still (takes : Takes f s s' bs) (used : f.used s b = true) : f.used s' b = true := by
  rw [takes.marks, used]
  rfl

/-- The slot's array has one block more, at its end. -/
theorem fillSlot_runs (super : f.used w.space 0 = true)
    (here : w.stream.tables[t]? = some runs) (used : Used runs)
    (safe : FillSafe f Unwrapped w t runs.length)
    (done : fillSlot f w t runs.length = (.ok nb, w')) :
    ∃ grow : List Run → List Run,
      w'.stream = { w.stream with tables := w.stream.tables.modify t grow } ∧
      runData f.agShift (grow runs) = runData f.agShift runs ++ [nb] ∧
      (∀ r ∈ grow runs, r.isEmpty = false) ∧ (grow runs).length ≤ runs.length + 1 := by
  have array : w.stream.tables.getD t [] = runs := by rw [getD_eq_getElem?_getD, here]; rfl
  simp only [fillSlot, array] at done
  split at done
  · rename_i s next taken
    cases done
    obtain ⟨r, last, taken⟩ := Option.bind_eq_some_iff.mp taken
    split at taken
    · rename_i positive
      have unwrapped := safe r (by rw [array]; exact last) positive (by rw [taken]; rfl)
      refine ⟨_, rfl, ?_, fun q member => mem_extended last unwrapped used member, ?_⟩
      · rw [runData_extend last unwrapped, (takeNext_takes taken).1]
      · rw [length_modify]
        exact Nat.le_succ _
    · cases taken
  · split at done
    · cases done
    rename_i s next taken
    cases done
    have takes := balloc_takes taken
    have inside := takes.inside nb mem_cons_self
    refine ⟨_, rfl, ?_, ?_, ?_⟩
    · rw [take_length, runData_append, runData_cons, made_blocks inside (by decide)]
      rfl
    · rw [take_length]
      refine forall_mem_append.mpr ⟨used, forall_mem_singleton.mpr ?_⟩
      exact make_used (takes.fresh super mem_cons_self) inside Nat.one_pos (by decide)
    · simp

theorem fillSlot_tables (tabled : Tabled f w.stream) (super : f.used w.space 0 = true)
    {full : List (List Run)} {rest : List (List Run)}
    (split : w.stream.tables = full ++ runs :: rest)
    (before : ∀ l ∈ full, l.length = f.arrayLen) (room : runs.length < f.arrayLen)
    (empty : ∀ later ∈ rest, later = []) (safe : FillSafe f Unwrapped w full.length runs.length)
    (done : fillSlot f w full.length runs.length = (.ok nb, w')) :
    Tabled f w'.stream ∧ w'.stream.direct = w.stream.direct ∧
      w'.stream.maxDirectRange = w.stream.maxDirectRange ∧
      w'.stream.tableData f.agShift = w.stream.tableData f.agShift ++ [nb] := by
  have inTables : ∀ {l}, l ∈ full ∨ l = runs ∨ l ∈ rest → l ∈ w.stream.tables := by
    intro l
    rw [split, mem_append, mem_cons]
    exact id
  have here : w.stream.tables[full.length]? = some runs := by simp [split]
  obtain ⟨grow, stream, data, used, length⟩ := fillSlot_runs super here
    (tabled.tables runs (inTables (.inr (.inl rfl)))) safe done
  have tables : w'.stream.tables = full ++ grow runs :: rest := by
    rw [stream]
    rw [split, modify_behind]
  refine ⟨⟨fun l member => ?_, ?_⟩, by rw [stream], by rw [stream], ?_⟩
  · rw [tables, mem_append, mem_cons] at member
    rcases member with old | rfl | old
    · exact tabled.tables l (inTables (.inl old))
    · exact used
    · exact tabled.tables l (inTables (.inr (.inr old)))
  · rw [tables]
    exact dense_append before ⟨by omega, fun _ => empty, dense_of_empty empty⟩
  · rw [tableData, tableData, tables, split]
    simp only [flatten_append, flatten_cons, flatten_of_empty empty, runData_append,
      append_nil, data, append_assoc]

/-- A table block more, and nothing else that the walks read; what was marked still is. -/
theorem growTable_tables (done : growTable f w t = (.ok (), w')) :
    w'.stream.direct = w.stream.direct ∧ w'.stream.maxDirectRange = w.stream.maxDirectRange ∧
      w'.stream.tables = w.stream.tables ++ [[]] ∧
      ∀ b, f.used w.space b = true → f.used w'.space b = true := by
  have added : ∀ {v : Work}, addTable f v = (.ok (), w') →
      w'.stream.direct = v.stream.direct ∧ w'.stream.maxDirectRange = v.stream.maxDirectRange ∧
        w'.stream.tables = v.stream.tables ++ [[]] ∧
        ∀ b, f.used v.space b = true → f.used w'.space b = true := by
    intro v done
    unfold addTable at done
    split at done
    · cases done
    · rename_i taken
      cases done
      exact ⟨rfl, rfl, rfl, fun _ => (balloc_takes taken).still⟩
  unfold growTable at done
  split at done
  · split at done
    · cases done
    · rename_i taken
      cases done
      exact ⟨rfl, rfl, rfl, fun _ => (balloc_takes taken).still⟩
  · split at done
    · rename_i taken
      cases done
      split at taken
      · exact ⟨rfl, rfl, rfl, fun _ => (takeNext_takes taken).2.still⟩
      · cases taken
    · simp only at done
      split at done
      · unfold growDouble at done
        split at done
        · split at done
          · cases done
          · rename_i taken
            obtain ⟨direct, range, tables, still⟩ := added done
            exact ⟨direct, range, tables, fun b used => still b ((balloc_takes taken).still used)⟩
        · split at done
          · rename_i taken
            obtain ⟨direct, range, tables, still⟩ := added done
            exact ⟨direct, range, tables,
              fun b used => still b ((takeNext_takes taken).2.still used)⟩
          · cases done
      · exact added done

/-- An empty table behind full ones. -/
theorem Tabled.grown {st st' : Stream} (tabled : Tabled f st)
    (allFull : ∀ runs ∈ st.tables, runs.length = f.arrayLen)
    (tables : st'.tables = st.tables ++ [[]]) : Tabled f st' := by
  constructor <;> rw [tables]
  · exact forall_mem_append.mpr ⟨tabled.tables, by simp⟩
  · exact dense_append allFull (dense_of_empty (by simp))

/-- If the block becomes the next one of a table's run, that run has room for it. -/
def FillsRoom (f : Format) (w : Work) (block : Nat) : Prop :=
  ∀ t j covered, seekTables f w.stream block = .slot t j covered →
    ¬ covered < tableOffset w.stream block → FillSafe f Unwrapped w t j

/-- In the tables, the block is found or becomes the next one. -/
theorem indirectBmap_tables (tabled : Tabled f w.stream)
    (super : f.used w.space 0 = true) (room : FillsRoom f w block)
    (done : indirectBmap f block fuel w = (.ok nb, w')) :
    Tabled f w'.stream ∧ w'.stream.direct = w.stream.direct ∧
      w'.stream.maxDirectRange = w.stream.maxDirectRange ∧
      ((w'.stream.tables = w.stream.tables ∧
          (w.stream.tableData f.agShift)[tableOffset w.stream block]? = some nb) ∨
        (tableOffset w.stream block = (w.stream.tableData f.agShift).length ∧
          w'.stream.tableData f.agShift = w.stream.tableData f.agShift ++ [nb])) := by
  induction fuel generalizing w with
  | zero => cases done
  | succ fuel ih =>
    rw [indirectBmap] at done
    rcases seek_cases tabled (tableOffset w.stream block) with ⟨disk, found, ends⟩ |
      ⟨found, ⟨full, runs, rest, split, before, short, empty, ends⟩ | ⟨allFull, ends⟩⟩
    · rw [seekTables, ends] at done
      cases done
      exact ⟨tabled, rfl, rfl, .inl ⟨rfl, found⟩⟩
    · have beyond := List.getElem?_eq_none_iff.mp found
      rw [seekTables, ends] at done
      simp only at done
      split at done
      · cases done
      rename_i near
      obtain ⟨tabled', direct, range, data⟩ :=
        fillSlot_tables tabled super split before short empty (room _ _ _ ends near) done
      exact ⟨tabled', direct, range, .inr ⟨by omega, data⟩⟩
    · rw [seekTables, ends] at done
      simp only at done
      split at done
      · cases done
      rename_i v grown
      obtain ⟨direct, range, tables, still⟩ := growTable_tables grown
      have data : v.stream.tableData f.agShift = w.stream.tableData f.agShift := by
        rw [tableData, tables]
        simp [tableData]
      have offset : tableOffset v.stream block = tableOffset w.stream block := by
        rw [tableOffset, range, tableOffset]
      have tabled' : Tabled f v.stream := tabled.grown allFull tables
      -- the slot the walk comes to now is the first of the new table
      have room' : FillsRoom f v block := by
        intro t j covered slot _ r _ positive
        rcases seek_cases tabled' (tableOffset v.stream block) with ⟨disk, _, ends⟩ |
          ⟨_, ⟨full, runs, rest, split, _, short, _, ends⟩ | ⟨_, ends⟩⟩
        · rw [seekTables, ends] at slot
          cases slot
        · rw [seekTables, ends] at slot
          cases slot
          have member : runs ∈ w.stream.tables ++ [[]] := by
            rw [← tables, split]
            simp
          rcases mem_append.mp member with old | new
          · exact absurd (allFull runs old) (Nat.ne_of_lt short)
          · rw [mem_singleton.mp new] at positive
            exact absurd positive (Nat.lt_irrefl 0)
        · rw [seekTables, ends] at slot
          cases slot
      have later := ih tabled' (still 0 super) room' done
      obtain ⟨tabled'', direct', range', grew⟩ := later
      rw [data, offset] at grew
      refine ⟨tabled'', direct'.trans direct, range'.trans range, ?_⟩
      rcases grew with ⟨_, old⟩ | more
      · rw [found] at old
        cases old
      · exact .inr more

/-- The tables map the block as before, or now behind all their data. -/
def TableGrew (f : Format) (w : Work) (block nb : Nat) (w' : Work) : Prop :=
  (w'.stream.tableData f.agShift = w.stream.tableData f.agShift ∧
      (w.stream.tableData f.agShift)[tableOffset w.stream block]? = some nb) ∨
    (tableOffset w.stream block = (w.stream.tableData f.agShift).length ∧
      w'.stream.tableData f.agShift = w.stream.tableData f.agShift ++ [nb])

theorem indirectBmap_grown (shape : Shape f w.stream)
    (fits : Fits f Q others w) (super : others 0) (all : w.stream.direct.length = numDirectBlocks)
    (safe : IndirectSafe f Unwrapped block fuel w)
    (done : indirectBmap f block fuel w = (.ok nb, w')) :
    Shape f w'.stream ∧ w'.stream.direct = w.stream.direct ∧
      w'.stream.maxDirectRange = w.stream.maxDirectRange ∧
      TableGrew f w block nb w' := by
  have room : FillsRoom f w block := by
    intro t j covered slot
    cases fuel with
    | zero => cases done
    | succ fuel =>
      rw [IndirectSafe, slot] at safe
      exact safe
  obtain ⟨tabled, direct, range, grew⟩ :=
    indirectBmap_tables shape.tabled (fits.kept 0 super) room done
  refine ⟨⟨direct ▸ shape.direct, tabled.tables, direct ▸ shape.few, tabled.dense,
    fun _ => direct ▸ all, ?_, range ▸ shape.range⟩, direct, range, grew.imp_left ?_⟩
  · rw [range, directData, direct]
    exact shape.within
  · rintro ⟨tables, found⟩
    exact ⟨by rw [tableData, tables, tableData], found⟩

abbrev Stream.lastLen (st : Stream) : Nat :=
  (st.direct[st.direct.length - 1]?.map fun r => r.len.toNat).getD 0

/-- The block behind the last direct run, as the allocation loop first tries it. -/
theorem extension_eq (used : Used w.stream.direct) :
    (if 0 < w.stream.direct.length ∧ w.stream.lastLen ≠ 0 then
      w.stream.direct[w.stream.direct.length - 1]?.bind fun r => takeNext f w.space r w.stream.lastLen
      else none) =
      w.stream.direct.getLast?.bind fun r => takeNext f w.space r r.len.toNat := by
  rw [lastLen, List.getLast?_eq_getElem?]
  cases last : w.stream.direct[w.stream.direct.length - 1]? with
  | none => simp
  | some r =>
    have inside := (List.getElem?_eq_some_iff.mp last).1
    have length : r.len.toNat ≠ 0 := by
      intro none
      refine (isEmpty_eq_false.mp (used r (mem_of_getElem? last))).1 ?_
      exact UInt16.toNat_inj.mp none
    have both : 0 < w.stream.direct.length ∧ r.len.toNat ≠ 0 := ⟨by omega, length⟩
    simp only [Option.map_some, Option.getD_some, Option.bind_some, if_pos both]

/-- The first block behind the direct runs is mapped by one round of the allocation loop. -/
theorem growDirect_grown (shape : Shape f w.stream) (fits : Fits f Q others w) (super : others 0)
    (few : w.stream.direct.length < numDirectBlocks)
    (next : block = (w.stream.directData f.agShift).length)
    (safe : GrowSafe f Unwrapped block 1 w w.stream.direct.length w.stream.lastLen block)
    (done : growDirect f block 1 w w.stream.direct.length w.stream.lastLen block = (.ok nb, w')) :
    ∃ more, w'.stream.directData f.agShift = w.stream.directData f.agShift ++ nb :: more ∧
      more.length + 1 = opened f w ∧ w'.stream.tables = w.stream.tables ∧
      w'.stream.maxDirectRange = (w'.stream.directData f.agShift).length ∧
      (∀ r ∈ w'.stream.direct, r.isEmpty = false) ∧
      w'.stream.direct.length ≤ numDirectBlocks := by
  rw [GrowSafe, extension_eq shape.direct] at safe
  rw [growDirect, extension_eq shape.direct] at done
  have notAll := Nat.not_le.mpr few
  cases extended : w.stream.direct.getLast?.bind fun r => takeNext f w.space r r.len.toNat with
  | some taken =>
    rw [extended] at safe done
    simp only [Nat.lt_succ_self] at done
    cases done
    obtain ⟨r, last, taken⟩ := Option.bind_eq_some_iff.mp extended
    have last' := last
    rw [List.getLast?_eq_getElem?] at last'
    have unwrapped : Unwrapped r := safe.1 r last'
    have data : runData f.agShift (w.stream.direct.modify _ extend) = _ :=
      runData_extend last' unwrapped
    refine ⟨[], ?_, ?_, rfl, ?_, fun q member => mem_extended last' unwrapped shape.direct member,
      ?_⟩
    · rw [(takeNext_takes taken).1]
      exact data
    · have isSome : (w.stream.direct.getLast?.bind fun r =>
          takeNext f w.space r r.len.toNat).isSome = true := by
        rw [last, Option.bind_some, taken]
        rfl
      rw [opened, if_neg notAll, if_pos isSome]
      rfl
    · show block + 1 = (runData f.agShift (w.stream.direct.modify _ extend)).length
      rw [data, length_append, next]
      rfl
    · rw [length_modify]
      exact shape.few
  | none =>
    rw [extended] at done
    simp only [if_neg notAll] at done
    split at done
    · cases done
    rename_i s first wlen window
    obtain ⟨positive, most, group, inside, takes⟩ := ballocContig_takes (by decide) window
    have reaches : block < block + wlen := by omega
    simp only [if_pos reaches] at done
    cases done
    have blocks := made_blocks inside most
    have split : List.range' nb wlen = nb :: List.range' (nb + 1) (wlen - 1) := by
      rw [show wlen = wlen - 1 + 1 by omega, List.range'_succ, Nat.add_sub_cancel]
    have whole : w.stream.direct.take w.stream.direct.length = w.stream.direct :=
      take_length
    have data : runData f.agShift (w.stream.direct.take w.stream.direct.length ++
        [make f.agShift nb wlen]) = w.stream.directData f.agShift ++ List.range' nb wlen := by
      rw [runData_append, runData_cons, blocks]
      simp [directData]
    have member : nb ∈ List.range' nb wlen := by rw [split]; exact mem_cons_self
    refine ⟨List.range' (nb + 1) (wlen - 1), ?_, ?_, rfl, ?_, fun q inDirect => ?_, ?_⟩
    · rw [← split]
      exact data
    · rw [opened, if_neg notAll, extended, window, length_range']
      simp only [Option.isSome_none, Bool.false_eq_true, if_false]
      omega
    · show block + wlen = (runData f.agShift (_ ++ _)).length
      rw [data, length_append, length_range', next]
    · rw [whole] at inDirect
      rcases mem_append.mp inDirect with old | new
      · exact shape.direct q old
      · rw [mem_singleton.mp new]
        exact make_used (takes.fresh (fits.kept 0 super) member) inside positive most
    · simp only [whole, length_append, length_singleton]
      omega

/-- What a call that returned `nb` for `block` did to the stream. -/
structure Grown (f : Format) (w : Work) (block nb : Nat) (w' : Work) : Prop where
  shape : Shape f w'.stream
  here : bmapRead f w'.stream block = some nb
  /-- What was mapped stays where it was. -/
  keeps : ∀ c b, bmapRead f w.stream c = some b → bmapRead f w'.stream c = some b
  /-- What becomes mapped are the opened blocks. -/
  only : ∀ c, c < 2 ^ 32 → bmapRead f w.stream c = none → bmapRead f w'.stream c ≠ none →
    bmapRead f w.stream block = none ∧ block ≤ c ∧ c < block + opened f w
  /-- A table is begun only for a block behind the direct range. -/
  tables : w'.stream.tables ≠ [] →
    w.stream.tables ≠ [] ∧ w'.stream.maxDirectRange = w.stream.maxDirectRange ∨
      w'.stream.maxDirectRange ≤ block

/-- The block is mapped already, or the next one where the direct runs can grow. -/
def Reaches (f : Format) (st : Stream) (block : Nat) : Prop :=
  bmapRead f st block = none → st.direct.length < numDirectBlocks →
    block = (st.directData f.agShift).length

theorem grown_of_direct (shape : Shape f w.stream) (fits : Fits f (fun _ => True) others w')
    (super : others 0) (few : w.stream.direct.length < numDirectBlocks)
    (next : block = (w.stream.directData f.agShift).length) {more : List Nat}
    (data : w'.stream.directData f.agShift = w.stream.directData f.agShift ++ nb :: more)
    (count : more.length + 1 = opened f w) (tables : w'.stream.tables = w.stream.tables)
    (range : w'.stream.maxDirectRange = (w'.stream.directData f.agShift).length)
    (used : ∀ r ∈ w'.stream.direct, r.isEmpty = false)
    (most : w'.stream.direct.length ≤ numDirectBlocks) : Grown f w block nb w' := by
  -- no tables yet: the direct runs are not all in use
  have none : w.stream.tables = [] := by
    by_contra some
    exact absurd (shape.behind some) (Nat.ne_of_lt few)
  have none' : w'.stream.tables = [] := tables.trans none
  have shape' : Shape f w'.stream := by
    refine ⟨used, ?_, most, ?_, fun some => absurd none' some, Nat.le_of_eq range.symm,
      range ▸ directData_length fits super⟩
    · simp [none']
    · rw [none']
      trivial
  have read : ∀ c, bmapRead f w.stream c = (w.stream.directData f.agShift)[c]? := by
    intro c
    rw [bmapRead_eq shape]
    split
    · rfl
    · rename_i beyond
      exact (List.getElem?_eq_none_iff.mpr (Nat.le_of_not_lt beyond)).symm
  have read' : ∀ c, bmapRead f w'.stream c = (w'.stream.directData f.agShift)[c]? := by
    intro c
    rw [bmapRead_eq shape']
    split
    · rfl
    · rename_i beyond
      rw [List.getElem?_eq_none_iff.mpr (Nat.le_of_not_lt beyond), tableData, none']
      simp
  refine ⟨shape', ?_, fun c b mapped => ?_, fun c _ unmapped mapped => ?_,
    fun some => absurd none' some⟩
  · rw [read', data, next, List.getElem?_append_right le_rfl, Nat.sub_self]
    rfl
  · rw [read] at mapped
    rw [read', data, List.getElem?_append_left (List.getElem?_eq_some_iff.mp mapped).1, mapped]
  · rw [read, List.getElem?_eq_none_iff] at unmapped
    rw [read', Ne, List.getElem?_eq_none_iff, data, length_append, length_cons] at mapped
    refine ⟨?_, by omega, by omega⟩
    rw [read, next]
    exact List.getElem?_eq_none_iff.mpr le_rfl

variable (shape : Shape f w.stream) (fits : Fits f (fun _ => True) others w) (super : others 0)
  (small : block < 2 ^ 32)

include shape fits super small

theorem grown_of_table (all : ¬ w.stream.direct.length < numDirectBlocks)
    (beyond : (w.stream.directData f.agShift).length ≤ block)
    (shape' : Shape f w'.stream) (direct : w'.stream.direct = w.stream.direct)
    (range : w'.stream.maxDirectRange = w.stream.maxDirectRange)
    (grew : TableGrew f w block nb w') : Grown f w block nb w' := by
  have data : w'.stream.directData f.agShift = w.stream.directData f.agShift := by
    rw [directData, direct, directData]
  have offset : ∀ c, tableOffset w'.stream c = tableOffset w.stream c := fun c => by
    rw [tableOffset, range, tableOffset]
  have read : ∀ c, bmapRead f w.stream c =
      if c < (w.stream.directData f.agShift).length then (w.stream.directData f.agShift)[c]?
      else (w.stream.tableData f.agShift)[tableOffset w.stream c]? := fun c => by
    rw [bmapRead_eq shape, if_neg all]
  have read' : ∀ c, bmapRead f w'.stream c =
      if c < (w.stream.directData f.agShift).length then (w.stream.directData f.agShift)[c]?
      else (w'.stream.tableData f.agShift)[tableOffset w.stream c]? := fun c => by
    rw [bmapRead_eq shape', direct, if_neg all, data, offset]
  have notDirect := Nat.not_lt.mpr beyond
  -- what the tables map is far less than what 32 bits count
  have near : w.stream.maxDirectRange ≤ block := by
    have few := tableData_length fits super
    have low := shape.range
    have reached : tableOffset w.stream block ≤ (w.stream.tableData f.agShift).length := by
      rcases grew with ⟨_, found⟩ | ⟨here, _⟩
      · exact Nat.le_of_lt (List.getElem?_eq_some_iff.mp found).1
      · exact Nat.le_of_eq here
    unfold tableOffset at reached
    omega
  refine ⟨shape', ?_, fun c b mapped => ?_, fun c smallC unmapped mapped => ?_, fun _ => .inr ?_⟩
  · rw [read', if_neg notDirect]
    rcases grew with ⟨same, found⟩ | ⟨here, more⟩
    · rw [same, found]
    · rw [more, here, List.getElem?_append_right le_rfl, Nat.sub_self]
      rfl
  · rw [read] at mapped
    rw [read']
    split
    · rename_i inside
      rwa [if_pos inside] at mapped
    · rename_i outside
      rw [if_neg outside] at mapped
      rcases grew with ⟨same, _⟩ | ⟨_, more⟩
      · rw [same, mapped]
      · rw [more, List.getElem?_append_left (List.getElem?_eq_some_iff.mp mapped).1, mapped]
  · rw [read] at unmapped
    rw [read'] at mapped
    split at unmapped
    · rename_i inside
      rw [if_pos inside] at mapped
      exact absurd unmapped mapped
    · rename_i outside
      rw [if_neg outside] at mapped
      rcases grew with ⟨same, _⟩ | ⟨here, more⟩
      · rw [same] at mapped
        exact absurd unmapped mapped
      rw [List.getElem?_eq_none_iff] at unmapped
      rw [more, Ne, List.getElem?_eq_none_iff, length_append, length_singleton] at mapped
      have offsets : tableOffset w.stream c = tableOffset w.stream block := by omega
      obtain rfl := tableOffset_inj smallC small offsets
      refine ⟨?_, le_rfl, ?_⟩
      · rw [read, if_neg outside]
        exact List.getElem?_eq_none_iff.mpr unmapped
      · rw [opened, if_pos (Nat.le_of_not_lt all)]
        exact Nat.lt_succ_self c
  · rw [range]
    exact near

/-- **A call that returns maps the block to what it returns, and moves nothing.** -/
theorem bmapWrite_grown (safe : BmapSafe f Unwrapped w block) (reaches : Reaches f w.stream block)
    (done : bmapWrite f w block = (.ok nb, w')) :
    Grown f w block nb w' := by
  have fits' := bmapWrite_fits unwrapped_keeps fits safe
  rw [done] at fits'
  rw [BmapSafe] at safe
  rw [bmapWrite] at done
  cases found : (w.stream.directData f.agShift)[block]? with
  | some disk =>
    rw [walkDirect_hit shape.direct found] at done
    cases done
    have inside := (List.getElem?_eq_some_iff.mp found).1
    exact ⟨shape, by rw [bmapRead_eq shape, if_pos inside, found], fun c b mapped => mapped,
      fun c _ unmapped mapped => absurd unmapped mapped, fun some => .inl ⟨some, rfl⟩⟩
  | none =>
    have beyond := List.getElem?_eq_none_iff.mp found
    rw [walkDirect_past shape.direct beyond] at done safe
    by_cases few : w.stream.direct.length < numDirectBlocks
    · rw [if_pos few] at done safe
      have next : block = (w.stream.directData f.agShift).length := by
        refine reaches ?_ few
        rw [bmapRead_eq shape, if_neg (Nat.not_lt.mpr beyond), if_pos few]
      simp only [← next, Nat.add_sub_cancel_left] at done safe
      obtain ⟨more, data, count, tables, range, used, most⟩ :=
        growDirect_grown shape fits super few next safe done
      exact grown_of_direct shape fits' super few next data count tables range used most
    · rw [if_neg few] at done safe
      have all := Nat.le_antisymm shape.few (Nat.le_of_not_lt few)
      obtain ⟨shape', direct, range, grew⟩ :=
        indirectBmap_grown shape fits super all safe done
      exact grown_of_table shape fits super small few beyond shape' direct range grew

end Grow

end Argentum.Agfs
