/-
# Agfs.StreamCut — what stays where it is when a stream is cut

`agfs_truncate` cuts the arrays of runs to a length and `agfs_trim_prealloc` gives up the
end of the last direct run. Both keep the `Shape` of the stream, and leave the blocks below
the length, or the size, where they are (`truncateStream_read`, `trimStream_read`). Neither
updates `max_direct_range`: a stream with twelve runs whose last one was cut has a hole up
to there.
-/
import Argentum.Agfs.StreamMap

namespace Argentum.Agfs

open List Agfs.Stream

/-- The blocks that so many bytes take. -/
def blocksFor (f : Format) (bytes : Nat) : Nat := (bytes + f.blockSize - 1) / f.blockSize

section Shrink

variable {f : Format} {st : Stream} {c length size : Nat} {runs : List Run}
  {tables : List (List Run)} {bytes covered : Nat}

theorem blockSize_pos (f : Format) : 0 < f.blockSize := Nat.two_pow_pos _

theorem lt_blocksFor : c < blocksFor f bytes ↔ c * f.blockSize < bytes := by
  have pos := blockSize_pos f
  rw [blocksFor, Nat.lt_div_iff_mul_lt pos]
  omega

theorem blocksFor_sub (bytes k : Nat) :
    blocksFor f (bytes - k * f.blockSize) = blocksFor f bytes - k := by
  refine Nat.le_antisymm (Nat.le_of_not_lt fun less => ?_) (Nat.le_of_not_lt fun less => ?_)
  · have one := lt_blocksFor.mp less
    have two := lt_blocksFor.not.mp (Nat.lt_irrefl (blocksFor f bytes))
    rw [Nat.sub_mul] at one
    omega
  · have one : blocksFor f (bytes - k * f.blockSize) + k < blocksFor f bytes := by omega
    have two := lt_blocksFor.not.mp (Nat.lt_irrefl (blocksFor f (bytes - k * f.blockSize)))
    rw [lt_blocksFor, Nat.add_mul] at one
    omega

theorem blocksFor_le {k : Nat} : blocksFor f bytes ≤ k ↔ bytes ≤ k * f.blockSize := by
  rw [← Nat.not_lt, ← Nat.not_lt, lt_blocksFor]

theorem keepOf_eq (length covered len : Nat) :
    keepOf f length covered len = min len (blocksFor f (length - covered)) := by
  unfold keepOf
  split
  · have none : blocksFor f (length - covered) ≤ 0 := blocksFor_le.mpr (by omega)
    omega
  split
  · have most : blocksFor f (length - covered) ≤ len := blocksFor_le.mpr (by omega)
    rw [Nat.min_eq_right most]
    rfl
  · refine (Nat.min_eq_left ?_).symm
    by_contra less
    have strict := lt_blocksFor.not.mp (Nat.lt_irrefl (blocksFor f (length - covered)))
    have few : blocksFor f (length - covered) + 1 ≤ len := by omega
    have scaled := Nat.mul_le_mul_right f.blockSize few
    rw [Nat.add_mul] at scaled
    have pos := blockSize_pos f
    omega

theorem cut_data {keep : Nat} {r : Run} (most : keep ≤ r.len.toNat) :
    (r.cut keep).blocks f.agShift = (r.blocks f.agShift).take keep := by
  rw [← cut_blocks f most, take_left' (by rw [blocks_length, cut_len most])]

section

variable (length : Nat) (used : Used runs) (covered : Nat)

include used

/-- An array cut to a length keeps its data up to there. -/
theorem cutRuns_data : runData f.agShift (cutRuns f length runs covered).1 =
        (runData f.agShift runs).take (blocksFor f (length - covered)) ∧
      (cutRuns f length runs covered).2.2 =
        covered + (runData f.agShift runs).length * f.blockSize := by
  induction runs generalizing covered with
  | nil => simp [cutRuns]
  | cons r rest ih =>
    have here := used r mem_cons_self
    obtain ⟨data, reach⟩ := ih (forall_mem_of_forall_mem_cons used)
      (covered + r.len.toNat * f.blockSize)
    have most := keepOf_le f length covered r.len.toNat
    have kept : (r.blocks f.agShift).take (blocksFor f (length - covered)) =
        (r.blocks f.agShift).take (keepOf f length covered r.len.toNat) := by
      rw [keepOf_eq, take_eq_take_iff, blocks_length]
      omega
    rw [cutRuns, here, if_neg Bool.false_ne_true]
    constructor
    · rw [runData_cons, take_append, blocks_length, ← blocksFor_sub, Nat.sub_sub, ← data,
        kept]
      simp only
      split
      · rename_i none
        rw [none, take_zero, nil_append]
      · rw [runData_cons, cut_data most]
    · simp [reach, runData_cons, length_append, blocks_length, Nat.add_mul, Nat.add_assoc]

theorem cutRuns_used : ∀ r ∈ (cutRuns f length runs covered).1, r.isEmpty = false := by
  induction runs generalizing covered with
  | nil => simp [cutRuns]
  | cons r rest ih =>
    have here := used r mem_cons_self
    have later := ih (forall_mem_of_forall_mem_cons used) (covered + r.len.toNat * f.blockSize)
    rw [cutRuns, here, if_neg Bool.false_ne_true]
    simp only
    split
    · exact later
    · rename_i some
      exact forall_mem_cons.mpr ⟨cut_used here some (keepOf_le _ _ _ _), later⟩

theorem cutRuns_length : (cutRuns f length runs covered).1.length ≤ runs.length ∧
      (covered + (runData f.agShift runs).length * f.blockSize ≤ length →
        (cutRuns f length runs covered).1.length = runs.length) := by
  induction runs generalizing covered with
  | nil => simp [cutRuns]
  | cons r rest ih =>
    have here := used r mem_cons_self
    obtain ⟨fewer, same⟩ := ih (forall_mem_of_forall_mem_cons used)
      (covered + r.len.toNat * f.blockSize)
    rw [cutRuns, here, if_neg Bool.false_ne_true]
    simp only
    constructor
    · split
      · exact Nat.le_succ_of_le fewer
      · simpa using fewer
    · intro long
      rw [runData_cons, length_append, blocks_length, Nat.add_mul] at long
      have positive : 0 < r.len.toNat := by
        rw [Nat.pos_iff_ne_zero]
        intro none
        exact (isEmpty_eq_false.mp here).1 (UInt16.toNat_inj.mp none)
      have whole : 0 < blocksFor f (length - covered) := by
        rw [lt_blocksFor]
        have := Nat.mul_pos positive (blockSize_pos f)
        omega
      have kept : keepOf f length covered r.len.toNat ≠ 0 := by
        rw [keepOf_eq]
        omega
      rw [if_neg kept, length_cons, length_cons, same (by omega)]

end

theorem cutRuns_none (used : Used runs) (short : length ≤ covered) :
    (cutRuns f length runs covered).1 = [] := by
  have data := (cutRuns_data (f := f) length used covered).1
  have none : blocksFor f (length - covered) = 0 :=
    Nat.le_zero.mp (blocksFor_le.mpr (by omega))
  rw [none] at data
  -- a run in use holds a block
  rcases cut : (cutRuns f length runs covered).1 with _ | ⟨r, rest⟩
  · rfl
  have here := cutRuns_used length used covered r (by rw [cut]; exact mem_cons_self)
  rw [cut] at data
  have length := congrArg List.length (append_eq_nil_iff.mp data).1
  rw [blocks_length] at length
  exact absurd (UInt16.toNat_inj.mp length) (isEmpty_eq_false.mp here).1

theorem cutRuns_append (length : Nat) {front : List Run}
    (used : Used front) (rest : List Run) (covered : Nat) :
    (cutRuns f length (front ++ rest) covered).1 = (cutRuns f length front covered).1 ++
      (cutRuns f length rest (covered + (runData f.agShift front).length * f.blockSize)).1 := by
  induction front generalizing covered with
  | nil => simp [cutRuns]
  | cons r front ih =>
    have here := used r mem_cons_self
    have later := ih (forall_mem_of_forall_mem_cons used) (covered + r.len.toNat * f.blockSize)
    rw [cons_append, cutRuns, cutRuns, here, if_neg Bool.false_ne_true]
    simp only [later, runData_cons, length_append, Nat.add_mul, Nat.add_assoc]
    split <;> simp

/-- A last run wholly beyond the length is dropped. -/
theorem cutRuns_fewer (used : Used runs)
    (some : runs ≠ []) (short : blocksFor f length ≤ (runData f.agShift runs.dropLast).length) :
    (cutRuns f length runs 0).1.length < runs.length := by
  obtain ⟨front, last, rfl⟩ := (eq_nil_or_concat' runs).resolve_left some
  rw [dropLast_concat] at short
  have usedFront : Used front := fun r member =>
    used r (mem_append_left _ member)
  have beyond := blocksFor_le.mp short
  rw [cutRuns_append length usedFront,
    cutRuns_none (fun r member => used r (mem_append_right _ member)) (by omega), append_nil,
    length_append]
  exact Nat.lt_succ_of_le (cutRuns_length length usedFront 0).1

theorem cutTables_none (used : ∀ runs ∈ tables, Used runs)
    (short : length ≤ covered) : ∀ runs ∈ (cutTables f length tables covered).1, runs = [] := by
  induction tables generalizing covered with
  | nil => simp [cutTables]
  | cons runs rest ih =>
    have usedRuns := used runs mem_cons_self
    have reach := (cutRuns_data (f := f) length usedRuns covered).2
    exact forall_mem_cons.mpr ⟨cutRuns_none usedRuns short,
      ih (forall_mem_of_forall_mem_cons used) (by omega)⟩

theorem cutTables_empty (empty : ∀ runs ∈ tables, runs = []) (covered : Nat) :
    ∀ runs ∈ (cutTables f length tables covered).1, runs = [] := by
  induction tables generalizing covered with
  | nil => simp [cutTables]
  | cons runs rest ih =>
    refine forall_mem_cons.mpr ⟨?_, ih (forall_mem_of_forall_mem_cons empty) _⟩
    rw [empty runs mem_cons_self]
    rfl

section

variable (length : Nat) (used : ∀ runs ∈ tables, Used runs) (covered : Nat)

include used

theorem cutTables_data : runData f.agShift (cutTables f length tables covered).1.flatten =
      (runData f.agShift tables.flatten).take (blocksFor f (length - covered)) := by
  induction tables generalizing covered with
  | nil => simp [cutTables]
  | cons runs rest ih =>
    obtain ⟨data, reach⟩ := cutRuns_data length (used runs mem_cons_self) covered
    have later := ih (forall_mem_of_forall_mem_cons used) (cutRuns f length runs covered).2.2
    simp only [cutTables, flatten_cons, runData_append]
    rw [take_append, ← blocksFor_sub, Nat.sub_sub, ← reach, later, data]

theorem cutTables_used : ∀ runs ∈ (cutTables f length tables covered).1, Used runs := by
  induction tables generalizing covered with
  | nil => simp [cutTables]
  | cons runs rest ih =>
    exact forall_mem_cons.mpr ⟨cutRuns_used length (used runs mem_cons_self) covered,
      ih (forall_mem_of_forall_mem_cons used) _⟩

end

theorem cutTables_dense (used : ∀ runs ∈ tables, Used runs) (dense : Dense size tables)
    (covered : Nat) : Dense size (cutTables f length tables covered).1 := by
  induction tables generalizing covered with
  | nil => trivial
  | cons runs rest ih =>
    obtain ⟨fits, rest_empty, dense⟩ := dense
    have usedRuns := used runs mem_cons_self
    have usedRest : ∀ l ∈ rest, Used l :=
      (forall_mem_of_forall_mem_cons used)
    obtain ⟨fewer, same⟩ := cutRuns_length length usedRuns covered
    have reach := (cutRuns_data (f := f) length usedRuns covered).2
    refine ⟨Nat.le_trans fewer fits, fun short => ?_, ih usedRest dense _⟩
    by_cases whole : runs.length < size
    · exact cutTables_empty (rest_empty whole) _
    -- the array was full, so it was cut, and what lies behind is beyond the length
    refine cutTables_none usedRest ?_
    by_contra long
    omega

theorem tableOffset_behind (range : st.maxDirectRange < 2 ^ 31)
    (behind : st.maxDirectRange ≤ c) (small : c < 2 ^ 32) :
    tableOffset st c = c - st.maxDirectRange := by
  unfold tableOffset
  omega

theorem tableOffset_before (range : st.maxDirectRange < 2 ^ 31)
    (before : c < st.maxDirectRange) : 2 ^ 31 ≤ tableOffset st c := by
  unfold tableOffset
  omega

variable {Q : Run → Prop} {others : Nat → Prop} {s : Space}

/-- A block in front of the direct range's end is mapped by a direct run or not at all. -/
theorem bmapRead_before (shape : Shape f st) (fits : Fits f Q others ⟨s, st⟩) (super : others 0)
    (before : c < st.maxDirectRange) :
    bmapRead f st c = (st.directData f.agShift)[c]? := by
  rw [bmapRead_eq shape]
  split
  · rfl
  rename_i beyond
  have far := tableOffset_before shape.range before
  have few := tableData_length fits super
  rw [List.getElem?_eq_none_iff.mpr (Nat.le_of_not_lt beyond)]
  split
  · rfl
  · exact List.getElem?_eq_none_iff.mpr (by omega)

theorem truncateStream_short (short : length ≤ st.maxDirectRange * f.blockSize) :
    (truncateStream f st length).1.direct = (cutRuns f length st.direct 0).1 ∧
      (truncateStream f st length).1.tables = [] := by
  simp [truncateStream, if_pos short, and_self]

theorem truncateStream_long (long : ¬ length ≤ st.maxDirectRange * f.blockSize) :
    (truncateStream f st length).1.direct = (cutRuns f length st.direct 0).1 ∧
      (truncateStream f st length).1.tables =
        (cutTables f length st.tables (st.maxDirectRange * f.blockSize)).1 := by
  simp [truncateStream, if_neg long, and_self]

theorem truncateStream_range (length : Nat) :
    (truncateStream f st length).1.maxDirectRange = st.maxDirectRange := by
  simp only [truncateStream]
  split <;> rfl

theorem truncateStream_direct (length : Nat) :
    (truncateStream f st length).1.direct = (cutRuns f length st.direct 0).1 := by
  by_cases short : length ≤ st.maxDirectRange * f.blockSize
  · exact (truncateStream_short short).1
  · exact (truncateStream_long short).1

theorem truncateStream_data (shape : Shape f st) (length : Nat) :
    (truncateStream f st length).1.directData f.agShift =
      (st.directData f.agShift).take (blocksFor f length) := by
  rw [directData, truncateStream_direct, (cutRuns_data length shape.direct 0).1]
  rfl

theorem truncateStream_shape (shape : Shape f st) (length : Nat) :
    Shape f (truncateStream f st length).1 := by
  have data := truncateStream_data shape length
  have within : ((truncateStream f st length).1.directData f.agShift).length ≤
      (truncateStream f st length).1.maxDirectRange := by
    rw [data, truncateStream_range]
    exact Nat.le_trans (length_take_le' _ _) shape.within
  obtain ⟨fewer, same⟩ := cutRuns_length length shape.direct 0
  by_cases short : length ≤ st.maxDirectRange * f.blockSize
  · obtain ⟨direct, tables⟩ := truncateStream_short short
    refine ⟨?_, ?_, ?_, ?_, fun some => absurd tables some, within, ?_⟩
    · rw [direct]
      exact cutRuns_used length shape.direct 0
    · simp [tables]
    · rw [direct]
      exact Nat.le_trans fewer shape.few
    · rw [tables]
      trivial
    · rw [truncateStream_range]
      exact shape.range
  · obtain ⟨direct, tables⟩ := truncateStream_long short
    refine ⟨?_, ?_, ?_, ?_, fun some => ?_, within, ?_⟩
    · rw [direct]
      exact cutRuns_used length shape.direct 0
    · rw [tables]
      exact cutTables_used length shape.tables _
    · rw [direct]
      exact Nat.le_trans fewer shape.few
    · rw [tables]
      exact cutTables_dense shape.tables shape.dense _
    · have reached := Nat.mul_le_mul_right f.blockSize shape.within
      have all := same (by
        show 0 + (st.directData f.agShift).length * f.blockSize ≤ length
        omega)
      rw [direct, all]
      refine shape.behind fun none => some ?_
      rw [tables, none]
      rfl
    · rw [truncateStream_range]
      exact shape.range

/-- **Cutting a stream leaves the blocks below the length where they are.** -/
theorem truncateStream_read (shape : Shape f st) (fits : Fits f Q others ⟨s, st⟩)
    (super : others 0) (below : c * f.blockSize < length) (small : c < 2 ^ 32) :
    bmapRead f (truncateStream f st length).1 c = bmapRead f st c := by
  have data := truncateStream_data shape length
  have shape' := truncateStream_shape shape length
  have range : (truncateStream f st length).1.maxDirectRange = st.maxDirectRange :=
    truncateStream_range length
  have kept := lt_blocksFor.mpr below
  have direct : ((st.directData f.agShift).take (blocksFor f length))[c]? =
      (st.directData f.agShift)[c]? := List.getElem?_take_of_lt kept
  by_cases short : length ≤ st.maxDirectRange * f.blockSize
  · have before := Nat.lt_of_mul_lt_mul_right (Nat.lt_of_lt_of_le below short)
    rw [bmapRead_before shape fits super before, bmapRead_eq shape', data, direct, tableData,
      (truncateStream_short short).2]
    split
    · rfl
    rename_i beyond
    rw [length_take] at beyond
    have past : (st.directData f.agShift).length ≤ c := by omega
    rw [List.getElem?_eq_none_iff.mpr past]
    simp
  · have whole : (truncateStream f st length).1.directData f.agShift = st.directData f.agShift := by
      rw [data]
      refine take_of_length_le (Nat.le_trans shape.within ?_)
      by_contra less
      exact short (blocksFor_le.mp (Nat.le_of_lt (Nat.lt_of_not_le less)))
    obtain ⟨directRuns, tables⟩ := truncateStream_long short
    have count : (truncateStream f st length).1.direct.length = st.direct.length := by
      have reached := Nat.mul_le_mul_right f.blockSize shape.within
      rw [directRuns]
      refine (cutRuns_length length shape.direct 0).2 ?_
      show 0 + (st.directData f.agShift).length * f.blockSize ≤ length
      omega
    have offset : tableOffset (truncateStream f st length).1 c = tableOffset st c := by
      rw [tableOffset, range, tableOffset]
    have cut : (truncateStream f st length).1.tableData f.agShift =
        (st.tableData f.agShift).take (blocksFor f (length - st.maxDirectRange * f.blockSize)) := by
      rw [tableData, tables, cutTables_data length shape.tables]
      rfl
    rw [bmapRead_eq shape, bmapRead_eq shape', whole, count, offset, cut]
    split
    · rfl
    split
    · rfl
    by_cases before : c < st.maxDirectRange
    · have far := tableOffset_before shape.range before
      have few := tableData_length fits super
      rw [List.getElem?_eq_none_iff.mpr (by rw [length_take]; omega),
        List.getElem?_eq_none_iff.mpr (by omega)]
    · rw [tableOffset_behind shape.range (Nat.le_of_not_lt before) small]
      refine List.getElem?_take_of_lt (lt_blocksFor.mpr ?_)
      rw [Nat.sub_mul]
      omega

theorem coveredBy_eq (used : Used runs) (agShift : Nat) :
    coveredBy runs = (runs.length, (runData agShift runs).length) := by
  induction runs with
  | nil => rfl
  | cons r rest ih =>
    have here := used r mem_cons_self
    rw [coveredBy, here, ih (forall_mem_of_forall_mem_cons used)]
    simp

/-- What trimming does: nothing, or the last direct run gives up blocks behind the size. -/
theorem trimStream_cases (used : Used st.direct) (size : Nat) :
    (trimStream f st size).1 = st ∨
      ∃ runs, (trimStream f st size).1 = { st with direct := runs } ∧
        blocksFor f size < (st.directData f.agShift).length ∧
        (Used runs) ∧ runs.length ≤ st.direct.length ∧
        (runs.length = st.direct.length →
          (runData f.agShift st.direct.dropLast).length < blocksFor f size) ∧
        ∃ n, blocksFor f size ≤ n ∧ runData f.agShift runs = (st.directData f.agShift).take n := by
  simp only [trimStream, coveredBy_eq used f.agShift]
  rcases eq_nil_or_concat st.direct with none | ⟨front, last, split⟩
  · rw [none]
    exact .inl rfl
  · rw [concat_eq_append] at split
    have length : st.direct.length - 1 = front.length := by simp [split]
    have here : st.direct[st.direct.length - 1]? = some last := by rw [length, split]; simp
    rw [here]
    simp only
    split
    · exact .inl rfl
    rename_i more
    rw [not_or] at more
    right
    have whole : st.directData f.agShift = runData f.agShift front ++ last.blocks f.agShift := by
      rw [directData, split]
      simp
    have total := congrArg List.length whole
    rw [length_append, blocks_length] at total
    have beyond := Nat.lt_of_not_le more.2
    have usedFront : Used front := fun r member =>
      used r (by rw [split]; exact mem_append_left _ member)
    have usedLast := used last (by rw [split]; exact mem_append_right _ mem_cons_self)
    refine ⟨_, rfl, beyond, ?_⟩
    rw [length]
    generalize kept : last.len.toNat - min ((runData f.agShift st.direct).length -
      (size + f.blockSize - 1) / f.blockSize) last.len.toNat = keep
    have covers : blocksFor f size ≤ (runData f.agShift front).length + keep := by
      have : (runData f.agShift st.direct).length = (st.directData f.agShift).length := rfl
      have : blocksFor f size = (size + f.blockSize - 1) / f.blockSize := rfl
      omega
    have most : keep ≤ last.len.toNat := by omega
    split
    · have runs : st.direct.eraseIdx front.length = front := by
        rw [split, eraseIdx_append_of_length_le le_rfl]
        simp
      rw [runs]
      refine ⟨usedFront, by rw [split]; simp, fun same => ?_, (runData f.agShift front).length,
        by omega, ?_⟩
      · omega
      · rw [whole, take_left' rfl]
    · rename_i some
      rw [split, modify_behind]
      have used : ∀ r ∈ [last.cut keep], r.isEmpty = false :=
        forall_mem_singleton.mpr (cut_used usedLast some most)
      refine ⟨forall_mem_append.mpr ⟨usedFront, used⟩, by simp, fun _ => ?_,
        (runData f.agShift front).length + keep, covers, ?_⟩
      · have : (runData f.agShift st.direct).length = (st.directData f.agShift).length := rfl
        have : blocksFor f size = (size + f.blockSize - 1) / f.blockSize := rfl
        rw [dropLast_concat]
        omega
      · rw [whole, runData_append, runData_cons, cut_data most, take_length_add_append]
        simp

theorem trimStream_shape (shape : Shape f st)
    (low : st.tables ≠ [] → st.maxDirectRange * f.blockSize ≤ size) :
    Shape f (trimStream f st size).1 := by
  rcases trimStream_cases shape.direct size with
    same | ⟨runs, trimmed, beyond, used, fewer, _, n, _, data⟩
  · rw [same]
    exact shape
  · rw [trimmed]
    refine ⟨used, shape.tables, Nat.le_trans fewer shape.few, shape.dense, fun some => ?_, ?_,
      shape.range⟩
    · -- with tables in use the size is behind the direct range
      have reached := low some
      have scaled := Nat.mul_le_mul_right f.blockSize shape.within
      have cut := lt_blocksFor.not.mp (Nat.lt_irrefl (blocksFor f size))
      have less := Nat.mul_lt_mul_of_pos_right beyond (blockSize_pos f)
      omega
    · show (runData f.agShift runs).length ≤ st.maxDirectRange
      rw [data]
      exact Nat.le_trans (length_take_le' _ _) shape.within

/-- **Trimming leaves the blocks below the size where they are.** -/
theorem trimStream_read (shape : Shape f st)
    (low : st.tables ≠ [] → st.maxDirectRange * f.blockSize ≤ size)
    (below : c * f.blockSize < size) :
    bmapRead f (trimStream f st size).1 c = bmapRead f st c := by
  have shape' := trimStream_shape shape low
  rcases trimStream_cases shape.direct size with
    same | ⟨runs, trimmed, beyond, used, _, _, n, covers, data⟩
  · rw [same]
  have kept := lt_blocksFor.mpr below
  rw [trimmed] at shape' ⊢
  have read : (directData f.agShift { st with direct := runs })[c]? =
      (st.directData f.agShift)[c]? := by
    show (runData f.agShift runs)[c]? = _
    rw [data]
    exact List.getElem?_take_of_lt (by omega)
  have inside : c < (st.directData f.agShift).length := by omega
  have inside' : c < (directData f.agShift { st with direct := runs }).length := by
    show c < (runData f.agShift runs).length
    rw [data, length_take]
    omega
  rw [bmapRead_eq shape, bmapRead_eq shape', if_pos inside, if_pos inside', read]

end Shrink

end Argentum.Agfs
