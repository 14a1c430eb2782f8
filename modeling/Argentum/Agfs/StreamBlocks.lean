/-
# Agfs.StreamBlocks — the blocks a stream holds, as its calls take and free them

The calls of `Agfs.Stream` use the allocator through two facts only: a call takes free
blocks (`Takes`), or gives blocks back (`Gives`). `Fits` says that a stream's blocks are
its own: different from one another, marked, and none of the blocks held by others;
every call keeps that, and leaves the others' blocks marked.

A run is extended by taking the block behind it, whatever that block is. So what is
said of the single runs (`Q`) is kept only where each run that a call extends meets a
guard (`Keeps`, `BmapSafe`).
-/
import Mathlib.Data.List.Flatten
import Mathlib.Data.List.Nodup
import Mathlib.Data.List.Perm.Subperm
import Argentum.Agfs.Stream

namespace Argentum.Agfs

open List Run Space Format

/-! ## What the allocator takes and gives back -/

section Allocator

variable {f : Format} {b : Nat} {s s' : Space} {first got want : Nat}

theorem bitOffset_inj {c : Nat} (same : f.bitOffset f.bpb b = f.bitOffset f.bpb c) : b = c :=
  groupBit_inj (Nat.two_pow_pos _) f.group_bits same

theorem used_mark (s : Space) (b c : Nat) (v : Bool) :
    f.used (s.mark f.toGeometry f.bpb b v) c = if c = b then v else f.used s c := by
  show Function.update s.bitmap (f.bitOffset f.bpb b) v (f.bitOffset f.bpb c) = _
  by_cases same : c = b
  · rw [if_pos same, same, Function.update_self]
  · rw [if_neg same, Function.update_of_ne fun offset => same (bitOffset_inj offset)]
    rfl

/-- From `s` to `s'` the free blocks `bs` were taken. -/
structure Takes (f : Format) (s s' : Space) (bs : List Nat) : Prop where
  free : ∀ b ∈ bs, f.used s b = false
  inside : ∀ b ∈ bs, b < f.numBlocks
  nodup : bs.Nodup
  marks : ∀ c, f.used s' c = (f.used s c || decide (c ∈ bs))

/-- From `s` to `s'` the blocks `bs` were freed. -/
def Gives (f : Format) (s s' : Space) (bs : List Nat) : Prop :=
  ∀ c, f.used s' c = (f.used s c && !decide (c ∈ bs))

theorem takes_mark (free : f.used s b = false) (inside : b < f.numBlocks)
    (same : s'.bitmap = (s.mark f.toGeometry f.bpb b true).bitmap) : Takes f s s' [b] := by
  refine ⟨by simpa using free, by simpa using inside, nodup_singleton b, fun c => ?_⟩
  have here : f.used s' c = f.used (s.mark f.toGeometry f.bpb b true) c := by
    simp only [used, test, same]
  rw [here, used_mark]
  by_cases eq : c = b <;> simp [eq]

theorem firstFree_spec (found : s.firstFree f.toGeometry f.bpb = some b) :
    f.used s b = false ∧ b < f.numBlocks := by
  have free := List.find?_some found
  have member := mem_of_find?_eq_some found
  refine ⟨by simpa [used] using free, ?_⟩
  simp only [Geometry.searchOrder, mem_append, mem_range'_1, mem_range] at member
  split at member <;> omega

theorem balloc_takes (done : s.balloc f.toGeometry f.bpb = .ok (s', b)) : Takes f s s' [b] := by
  unfold balloc at done
  split at done
  · rename_i b' found
    cases done
    obtain ⟨free, inside⟩ := firstFree_spec found
    exact takes_mark free inside rfl
  · cases done

theorem ballocSpecific_takes
    (done : s.ballocSpecific f.toGeometry f.bpb b = .ok s') : Takes f s s' [b] := by
  unfold ballocSpecific at done
  split at done
  · cases done
  rename_i inside
  split at done
  · cases done
  · rename_i free
    cases done
    exact takes_mark (by simpa [used] using free) (Nat.lt_of_not_le inside) rfl

/-- The window from `first + got` on, which ends before a group does. -/
theorem window_takes {got' : Nat}
    (done : window f.toGeometry f.bpb first want got s = (s', got'))
    (group : first % 2 ^ f.agShift + got ≤ 2 ^ f.agShift) :
    got ≤ got' ∧ got' ≤ got + want ∧ first % 2 ^ f.agShift + got' ≤ 2 ^ f.agShift ∧
      Takes f s s' (List.range' (first + got) (got' - got)) := by
  induction want generalizing got s with
  | zero =>
    cases done
    refine ⟨le_rfl, le_rfl, group, ?_⟩
    rw [Nat.sub_self]
    exact ⟨by simp, by simp, nodup_nil, by simp⟩
  | succ want ih =>
    rw [window] at done
    split at done
    · cases done
      refine ⟨le_rfl, Nat.le_add_right _ _, group, ?_⟩
      rw [Nat.sub_self]
      exact ⟨by simp, by simp, nodup_nil, by simp⟩
    · rename_i free
      rw [not_or, not_or, not_and, Bool.not_eq_true, Nat.not_le] at free
      obtain ⟨inside, sameGroup, free⟩ := free
      have next : first % 2 ^ f.agShift + (got + 1) ≤ 2 ^ f.agShift := by
        by_contra overrun
        have full : first % 2 ^ f.agShift + got = 2 ^ f.agShift := by omega
        have starts : (first + got) % 2 ^ f.agShift = 0 := by
          rw [← Nat.mod_add_mod, full, Nat.mod_self]
        exact sameGroup (by omega) starts
      obtain ⟨least, most, stays, takes⟩ := ih done next
      have marked := takes_mark free inside rfl
      have split : List.range' (first + got) (got' - got) =
          (first + got) :: List.range' (first + (got + 1)) (got' - (got + 1)) := by
        rw [show got' - got = got' - (got + 1) + 1 by omega, List.range'_succ, Nat.add_assoc]
      refine ⟨by omega, by omega, stays, ?_⟩
      rw [split]
      refine ⟨fun b member => ?_, fun b member => ?_, nodup_cons.mpr ⟨?_, takes.nodup⟩,
        fun c => ?_⟩
      · rcases mem_cons.mp member with rfl | later
        · exact free
        · have := takes.free b later
          rw [marked.marks, Bool.or_eq_false_iff] at this
          exact this.1
      · rcases mem_cons.mp member with rfl | later
        · exact inside
        · exact takes.inside b later
      · rw [mem_range'_1]
        omega
      · rw [takes.marks, marked.marks]
        simp only [mem_cons, not_mem_nil, or_false, Bool.decide_or, Bool.or_assoc]

theorem ballocContig_takes (positive : 0 < want)
    (done : s.ballocContig f.toGeometry f.bpb want = .ok (s', first, got)) :
    0 < got ∧ got ≤ want ∧ first % 2 ^ f.agShift + got ≤ 2 ^ f.agShift ∧
      first < f.numBlocks ∧ Takes f s s' (List.range' first got) := by
  unfold ballocContig at done
  split at done
  · rename_i first' found
    obtain ⟨free, inside⟩ := firstFree_spec found
    cases taken : Space.window f.toGeometry f.bpb first' want 0 s with
    | mk s₁ got₁ =>
      rw [taken] at done
      cases done
      obtain ⟨_, most, stays, takes⟩ := window_takes taken (by omega)
      -- the first block is free, so the window takes it
      have some : 0 < got := by
        obtain _ | want := want
        · omega
        rw [Space.window] at taken
        simp only [Nat.add_zero, Nat.lt_irrefl, false_and, false_or] at taken
        rw [if_neg] at taken
        · exact (window_takes taken (by omega)).1
        · rw [not_or, Nat.not_le, Bool.not_eq_true]
          exact ⟨inside, free⟩
      refine ⟨some, by omega, stays, inside, ?_⟩
      exact ⟨takes.free, takes.inside, takes.nodup, takes.marks⟩
  · cases done

theorem used_bfree (s : Space) (inside : b < f.numBlocks) (c : Nat) :
    f.used (s.bfree f.toGeometry f.bpb b) c = (f.used s c && !decide (c = b)) := by
  rw [bfree, if_neg (Nat.not_le.mpr inside)]
  split
  · show f.used (s.mark f.toGeometry f.bpb b false) c = _
    rw [used_mark]
    by_cases here : c = b <;> simp [here]
  · rename_i free
    by_cases here : c = b
    · subst here
      simpa [used] using free
    · simp [here]

theorem bfreeAll_gives (s : Space) {bs : List Nat} (inside : ∀ b ∈ bs, b < f.numBlocks) :
    Gives f s (bfreeAll f s bs) bs := by
  induction bs generalizing s with
  | nil => intro c; simp [bfreeAll]
  | cons b bs ih =>
    intro c
    have rest := ih (s.bfree f.toGeometry f.bpb b) (forall_mem_of_forall_mem_cons inside) c
    rw [show bfreeAll f s (b :: bs) = bfreeAll f (s.bfree f.toGeometry f.bpb b) bs from rfl, rest,
      used_bfree s (inside b mem_cons_self)]
    simp only [mem_cons, Bool.decide_or, Bool.not_or, Bool.and_assoc]

end Allocator

/-! ## The blocks of a run -/

section Blocks

variable {α : Type} {a : α} {g : α → List Nat} {k keep : Nat} {l : List α}

theorem count_flatMap_modify {h : α → α} (found : l[k]? = some a) (x : Nat) :
    ((l.modify k h).flatMap g).count x + (g a).count x =
      (l.flatMap g).count x + (g (h a)).count x := by
  induction l generalizing k with
  | nil => cases found
  | cons y ys ih =>
    cases k with
    | zero =>
      cases found
      simp only [modify_zero_cons, flatMap_cons, count_append]
      omega
    | succ k =>
      have rest := ih found
      simp only [modify_succ_cons, flatMap_cons, count_append]
      omega

theorem count_flatMap_eraseIdx (found : l[k]? = some a) (x : Nat) :
    ((l.eraseIdx k).flatMap g).count x + (g a).count x = (l.flatMap g).count x := by
  induction l generalizing k with
  | nil => cases found
  | cons y ys ih =>
    cases k with
    | zero =>
      cases found
      simp only [eraseIdx_cons_zero, flatMap_cons, count_append]
      omega
    | succ k =>
      have rest := ih found
      simp only [eraseIdx_cons_succ, flatMap_cons, count_append]
      omega

variable {agShift : Nat} {r : Run} {count first : Nat}

theorem extend_len (short : r.len.toNat + 1 < 2 ^ 16) : r.extend.len.toNat = r.len.toNat + 1 := by
  show (r.len + 1).toNat = _
  exact Nat.mod_eq_of_lt short

theorem extend_blocks (short : r.len.toNat + 1 < 2 ^ 16) :
    r.extend.blocks agShift = r.blocks agShift ++ [r.base agShift + r.len.toNat] := by
  rw [blocks, extend_len short, List.range'_concat, Nat.one_mul]
  rfl

theorem make_base (shift : agShift ≤ 16) (small : first < 2 ^ 31) :
    (make agShift first count).base agShift = first :=
  runAbs_encodeRun shift small

theorem make_len (short : count < 2 ^ 16) : (make agShift first count).len.toNat = count := by
  show (UInt16.ofNat count).toNat = count
  exact Nat.mod_eq_of_lt short

theorem make_blocks (shift : agShift ≤ 16) (small : first < 2 ^ 31) (short : count < 2 ^ 16) :
    (make agShift first count).blocks agShift = List.range' first count := by
  rw [blocks, make_base shift small, make_len short]

theorem cut_len (most : keep ≤ r.len.toNat) : (r.cut keep).len.toNat = keep := by
  show (UInt16.ofNat keep).toNat = keep
  exact Nat.mod_eq_of_lt (Nat.lt_of_le_of_lt most r.len.toNat_lt)

theorem cut_blocks (f : Format) (most : keep ≤ r.len.toNat) :
    (r.cut keep).blocks f.agShift ++ tailBlocks f r keep = r.blocks f.agShift := by
  rw [blocks, cut_len most]
  show List.range' (r.base f.agShift) keep ++
    List.range' (r.base f.agShift + keep) (r.len.toNat - keep) = _
  rw [List.range'_append_1, Nat.add_sub_cancel' most]
  rfl

theorem keepOf_le (f : Format) (length covered len : Nat) : keepOf f length covered len ≤ len := by
  unfold keepOf
  split
  · exact Nat.zero_le _
  split
  · have pos : 0 < f.blockSize := Nat.two_pow_pos _
    rw [Nat.div_le_iff_le_mul_add_pred pos]
    have := Nat.mul_comm f.blockSize len
    omega
  · exact le_rfl

end Blocks

/-! ## One stream among others -/

/-- Every run of the stream is as `Q` says. -/
structure Stream.All (Q : Run → Prop) (st : Stream) : Prop where
  direct : ∀ r ∈ st.direct, Q r
  indirect : Q st.indirect
  double : Q st.doubleIndirect
  tables : ∀ runs ∈ st.tables, ∀ r ∈ runs, Q r

/-- The stream's runs are as `Q` says, and its blocks are different from one another, inside the
volume, marked, and not among the blocks of `others`, which are marked too. -/
structure Fits (f : Format) (Q : Run → Prop) (others : Nat → Prop) (w : Work) : Prop where
  runs : w.stream.All Q
  nodup : (w.stream.blocks f.agShift).Nodup
  inside : ∀ b ∈ w.stream.blocks f.agShift, b < f.numBlocks
  marked : ∀ b ∈ w.stream.blocks f.agShift, f.used w.space b = true
  apart : ∀ b ∈ w.stream.blocks f.agShift, ¬ others b
  kept : ∀ b, others b → f.used w.space b = true

/-- `Q` holds of new runs, is kept where a run is cut, and where one is extended under `G`, which
keeps a length in 16 bits. -/
structure Keeps (f : Format) (G Q : Run → Prop) : Prop where
  zero : Q .zero
  make : ∀ first count, first < f.numBlocks → 0 < count → count ≤ delallocWindow →
    first % 2 ^ f.agShift + count ≤ 2 ^ f.agShift → Q (.make f.agShift first count)
  extend : ∀ r, Q r → G r → Q r.extend
  cut : ∀ r keep, Q r → keep ≤ r.len.toNat → Q (r.cut keep)
  short : ∀ r, G r → r.len.toNat + 1 < 2 ^ 16

section Fits

variable {f : Format} {Q : Run → Prop} {others : Nat → Prop} {w : Work} {bs : List Nat} {s : Space}
  {st : Stream}

theorem Fits.take (fits : Fits f Q others w) (takes : Takes f w.space s bs) (runs : st.All Q)
    (blocks : (st.blocks f.agShift).Subperm (w.stream.blocks f.agShift ++ bs)) :
    Fits f Q others ⟨s, st⟩ := by
  have fresh : ∀ b ∈ bs, b ∉ w.stream.blocks f.agShift := fun b new old =>
    absurd (takes.free b new) (by simp [fits.marked b old])
  have whole : (w.stream.blocks f.agShift ++ bs).Nodup :=
    nodup_append.mpr ⟨fits.nodup, takes.nodup, fun a old b new same => fresh b new (same ▸ old)⟩
  have cases : ∀ b ∈ st.blocks f.agShift, b ∈ w.stream.blocks f.agShift ∨ b ∈ bs :=
    fun b member => mem_append.mp (blocks.subset member)
  refine ⟨runs, ?_, fun b member => ?_, fun b member => ?_, fun b member other => ?_,
    fun b other => ?_⟩
  · obtain ⟨l, perm, sub⟩ := blocks
    exact perm.nodup_iff.mp (whole.sublist sub)
  · exact (cases b member).elim (fits.inside b) (takes.inside b)
  · rw [takes.marks]
    rcases cases b member with old | new
    · simp [fits.marked b old]
    · simp [new]
  · rcases cases b member with old | new
    · exact fits.apart b old other
    · exact absurd (takes.free b new) (by simp [fits.kept b other])
  · rw [takes.marks]
    simp [fits.kept b other]

theorem Fits.give (fits : Fits f Q others w) (gives : Gives f w.space s bs) (runs : st.All Q)
    (blocks : (st.blocks f.agShift ++ bs).Subperm (w.stream.blocks f.agShift)) :
    Fits f Q others ⟨s, st⟩ := by
  have whole : (st.blocks f.agShift ++ bs).Nodup := by
    obtain ⟨l, perm, sub⟩ := blocks
    exact perm.nodup_iff.mp (fits.nodup.sublist sub)
  have old : ∀ b ∈ st.blocks f.agShift, b ∈ w.stream.blocks f.agShift := fun b member =>
    blocks.subset (mem_append_left _ member)
  refine ⟨runs, (nodup_append.mp whole).1, fun b member => fits.inside b (old b member),
    fun b member => ?_, fun b member => fits.apart b (old b member), fun b other => ?_⟩
  · have stays : b ∉ bs := fun freed => (nodup_append.mp whole).2.2 b member b freed rfl
    rw [gives]
    simp [fits.marked b (old b member), stays]
  · have stays : b ∉ bs := fun freed =>
      fits.apart b (blocks.subset (mem_append_right _ freed)) other
    rw [gives]
    simp [fits.kept b other, stays]

end Fits

/-! ## Growing under a guard -/

section Guard

variable (f : Format) (G : Run → Prop)

/-- The run that the slot's fill extends, if it does, meets the guard. -/
def FillSafe (w : Work) (t j : Nat) : Prop :=
  ∀ r, (w.stream.tables.getD t [])[j - 1]? = some r → 0 < j →
    (takeNext f w.space r r.len.toNat).isSome = true → G r

/-- So does the run of table blocks or of double-table blocks. -/
def TableSafe (w : Work) (t : Nat) : Prop :=
  (w.stream.doubleIndirect.len = 0 →
    (takeNext f w.space w.stream.indirect w.stream.indirect.len.toNat).isSome = true →
      G w.stream.indirect) ∧
  (w.stream.doubleIndirect.len ≠ 0 →
    w.stream.doubleIndirect.len.toNat * f.darray ≤ t - w.stream.indirect.len.toNat →
      (takeNext f w.space w.stream.doubleIndirect w.stream.doubleIndirect.len.toNat).isSome = true →
        G w.stream.doubleIndirect)

def IndirectSafe (block : Nat) : Nat → Work → Prop
  | 0, _ => True
  | fuel + 1, w =>
    match seekTables f w.stream block with
    | .hit _ => True
    | .slot t j covered => ¬ covered < tableOffset w.stream block → FillSafe f G w t j
    | .none t => (w.stream.indirect.len ≠ 0 → TableSafe f G w t) ∧
        ∀ w', growTable f w t = (.ok (), w') → IndirectSafe block fuel w'

/-- Along the allocation loop, every run that is extended meets the guard. -/
def GrowSafe (block : Nat) : Nat → Work → Nat → Nat → Nat → Prop
  | 0, _, _, _, _ => True
  | fuel + 1, w, nrun, lastLen, covered =>
    match if 0 < nrun ∧ lastLen ≠ 0 then
        w.stream.direct[nrun - 1]?.bind fun r => takeNext f w.space r lastLen else none with
    | some (s, _) =>
      (∀ r, w.stream.direct[nrun - 1]? = some r → G r) ∧
        (¬ block < covered + 1 → GrowSafe block fuel
          ⟨s, { w.stream with
            direct := w.stream.direct.modify (nrun - 1) Run.extend
            maxDirectRange := covered + 1 }⟩ nrun (lastLen + 1) (covered + 1))
    | none =>
      if numDirectBlocks ≤ nrun then IndirectSafe f G block 2 w
      else ∀ s nb wlen,
        w.space.ballocContig f.toGeometry f.bpb delallocWindow = .ok (s, nb, wlen) →
          ¬ block < covered + wlen → GrowSafe block fuel
            ⟨s, { w.stream with
              direct := w.stream.direct.take nrun ++ [Run.make f.agShift nb wlen]
              maxDirectRange := covered + wlen }⟩ (nrun + 1) wlen (covered + wlen)

/-- Every run that the call extends meets the guard. -/
def BmapSafe (w : Work) (block : Nat) : Prop :=
  match walkDirect f w.stream block with
  | .hit _ => True
  | .full _ => IndirectSafe f G block 2 w
  | .slot k covered =>
    GrowSafe f G block (block + 1 - covered) w k
      ((w.stream.direct[k - 1]?.map fun r => r.len.toNat).getD 0) covered

end Guard

section Grow

variable {f : Format} {G Q : Run → Prop} {others : Nat → Prop} {w : Work} {block next : Nat}
  {α : Type} {first fuel t : Nat} {r : Run} {s s' : Space} {β : Type}

theorem subperm_of_count {l m : List Nat} (most : ∀ x, l.count x ≤ m.count x) : l.Subperm m :=
  subperm_ext_iff.mpr fun x _ => most x

theorem count_blocks (st : Stream) (agShift x : Nat) :
    (st.blocks agShift).count x = (st.direct.flatMap (·.blocks agShift)).count x +
      (st.indirect.blocks agShift).count x + (st.doubleIndirect.blocks agShift).count x +
      st.addrs.count x + (st.tables.flatten.flatMap (·.blocks agShift)).count x := by
  simp only [Stream.blocks, count_append]

theorem flatten_flatMap (l : List (List α)) (g : α → List β) :
    l.flatten.flatMap g = l.flatMap fun xs => xs.flatMap g := by
  rw [flatten_eq_flatMap, flatMap_assoc]
  rfl

theorem takeNext_takes {len : Nat} (taken : takeNext f s r len = some (s', next)) :
    next = r.base f.agShift + len ∧ Takes f s s' [next] := by
  simp only [takeNext] at taken
  split at taken
  · rename_i s₁ done
    cases taken
    exact ⟨rfl, ballocSpecific_takes done⟩
  · cases taken

theorem mem_modify {l : List α} {k : Nat} {h : α → α} {a b : α}
    (found : l[k]? = some a) (member : b ∈ l.modify k h) : b = h a ∨ b ∈ l := by
  induction l generalizing k with
  | nil => cases found
  | cons x xs ih =>
    cases k with
    | zero =>
      cases found
      rw [modify_zero_cons, mem_cons] at member
      exact member.imp_right (mem_cons_of_mem _)
    | succ k =>
      rw [modify_succ_cons, mem_cons] at member
      rcases member with rfl | later
      · exact .inr mem_cons_self
      · exact (ih found later).imp_right (mem_cons_of_mem _)

/-- The blocks of a run that was extended by the block behind it. -/
theorem count_extended (short : r.len.toNat + 1 < 2 ^ 16)
    (behind : next = r.base f.agShift + r.len.toNat) (x : Nat) :
    (r.extend.blocks f.agShift).count x = (r.blocks f.agShift).count x + [next].count x := by
  rw [extend_blocks short, behind, count_append]

theorem made_blocks {count : Nat} (inside : first < f.numBlocks) (few : count ≤ delallocWindow) :
    (make f.agShift first count).blocks f.agShift = List.range' first count := by
  have most := f.numBlocks_le
  have window : delallocWindow = 256 := rfl
  exact make_blocks f.shift_le (by omega) (by omega)

variable (keeps : Keeps f G Q)
include keeps

theorem Keeps.make_one (inside : first < f.numBlocks) : Q (.make f.agShift first 1) :=
  keeps.make first 1 inside Nat.one_pos (by decide) (Nat.mod_lt _ (Nat.two_pow_pos _))

theorem fillSlot_fits (fits : Fits f Q others w) {j : Nat} (safe : FillSafe f G w t j) :
    Fits f Q others (fillSlot f w t j).2 := by
  simp only [fillSlot]
  split
  · -- the run before the slot is extended
    rename_i s next taken
    obtain ⟨r, found, taken⟩ := Option.bind_eq_some_iff.mp taken
    split at taken
    · rename_i positive
      obtain ⟨behind, takes⟩ := takeNext_takes taken
      have guard : G r := safe r found positive (by rw [taken]; rfl)
      obtain ⟨runs, atT, here⟩ : ∃ runs, w.stream.tables[t]? = some runs ∧ runs[j - 1]? = some r := by
        cases atT : w.stream.tables[t]? with
        | none => simp [atT] at found
        | some runs => exact ⟨runs, rfl, by simpa [atT] using found⟩
      have old := fits.runs.tables runs (mem_of_getElem? atT)
      refine fits.take takes { fits.runs with tables := fun l inList q inL => ?_ }
        (subperm_of_count fun x => ?_)
      · rcases mem_modify atT inList with rfl | unchanged
        · rcases mem_modify here inL with rfl | same
          · exact keeps.extend r (old r (mem_of_getElem? here)) guard
          · exact old q same
        · exact fits.runs.tables l unchanged q inL
      · have one := count_extended (keeps.short r guard) behind x
        have table := count_flatMap_modify (h := extend) (g := (·.blocks f.agShift)) here x
        have all := count_flatMap_modify (h := fun runs => runs.modify (j - 1) extend)
          (g := fun runs => runs.flatMap (·.blocks f.agShift)) atT x
        simp only [count_blocks, count_append, flatten_flatMap]
        omega
    · cases taken
  · split
    · exact fits
    -- a new run in the slot
    rename_i s nb done
    have takes := balloc_takes done
    have inside := takes.inside nb mem_cons_self
    have made : (make f.agShift nb 1).blocks f.agShift = [nb] := made_blocks inside (by decide)
    cases atT : w.stream.tables[t]? with
    | none =>
      have beyond := List.getElem?_eq_none_iff.mp atT
      have same : (w.stream.tables.modify t fun runs =>
          runs.take j ++ [make f.agShift nb 1]) = w.stream.tables := by
        rw [modify_eq_self beyond]
      rw [same]
      exact fits.take takes fits.runs (sublist_append_left _ _).subperm
    | some runs =>
      have old := fits.runs.tables runs (mem_of_getElem? atT)
      refine fits.take takes { fits.runs with tables := fun l inList q inL => ?_ }
        (subperm_of_count fun x => ?_)
      · rcases mem_modify atT inList with rfl | unchanged
        · rcases mem_append.mp inL with kept | new
          · exact old q (mem_of_mem_take kept)
          · rw [mem_singleton.mp new]
            exact keeps.make_one inside
        · exact fits.runs.tables l unchanged q inL
      · have fewer := ((take_sublist j runs).flatMap (·.blocks f.agShift)).count_le x
        have all := count_flatMap_modify (h := fun runs =>
          runs.take j ++ [make f.agShift nb 1])
          (g := fun runs => runs.flatMap (·.blocks f.agShift)) atT x
        simp only [flatMap_append, flatMap_singleton, made, count_append] at all
        simp only [count_blocks, count_append, flatten_flatMap]
        omega

omit keeps in
/-- A new table block is empty. -/
theorem Stream.All.emptied {st : Stream} (runs : st.All Q) : ∀ l ∈ st.tables ++ [[]], ∀ q ∈ l, Q q :=
  forall_mem_append.mpr ⟨runs.tables, by simp⟩

omit keeps in
theorem addTable_fits (fits : Fits f Q others w) : Fits f Q others (addTable f w).2 := by
  unfold addTable
  split
  · exact fits
  rename_i s next done
  refine fits.take (balloc_takes done) { fits.runs with tables := fits.runs.emptied }
    (subperm_of_count fun x => ?_)
  simp only [count_blocks, count_append, flatten_append, flatMap_append, flatten_singleton,
    flatMap_nil, count_nil]
  omega

theorem begun (done : s.balloc f.toGeometry f.bpb = .ok (s', next)) :
    Q (.make f.agShift next 1) ∧ Takes f s s' [next] ∧
      (make f.agShift next 1).blocks f.agShift = [next] := by
  have takes := balloc_takes done
  have inside := takes.inside next mem_cons_self
  exact ⟨keeps.make_one inside, takes, made_blocks inside (by decide)⟩

variable (fits : Fits f Q others w)

include fits

theorem growDouble_fits (safe : w.stream.doubleIndirect.len ≠ 0 →
      (takeNext f w.space w.stream.doubleIndirect w.stream.doubleIndirect.len.toNat).isSome = true →
        G w.stream.doubleIndirect) : Fits f Q others (growDouble f w).2 := by
  unfold growDouble
  split
  · split
    · exact fits
    rename_i s next done
    obtain ⟨quality, takes, blocks⟩ := begun keeps done
    refine addTable_fits (fits.take takes { fits.runs with double := quality }
      (subperm_of_count fun x => ?_))
    simp only [count_blocks, count_append, blocks]
    omega
  · rename_i some
    split
    · rename_i s next taken
      obtain ⟨behind, takes⟩ := takeNext_takes taken
      have guard := safe some (by rw [taken]; rfl)
      refine addTable_fits (fits.take takes
        { fits.runs with double := keeps.extend _ fits.runs.double guard }
        (subperm_of_count fun x => ?_))
      have grown := count_extended (keeps.short _ guard) behind x
      simp only [count_blocks, count_append]
      omega
    · exact fits

theorem growTable_fits (safe : w.stream.indirect.len ≠ 0 → TableSafe f G w t) :
    Fits f Q others (growTable f w t).2 := by
  unfold growTable
  split
  · split
    · exact fits
    rename_i s next done
    obtain ⟨quality, takes, blocks⟩ := begun keeps done
    refine fits.take takes { fits.runs with indirect := quality, tables := fits.runs.emptied }
      (subperm_of_count fun x => ?_)
    simp only [count_blocks, count_append, blocks, flatten_append,
      flatMap_append, flatten_singleton, flatMap_nil, count_nil]
    omega
  · rename_i some
    obtain ⟨indirectSafe, doubleSafe⟩ := safe some
    split
    · rename_i s next taken
      split at taken
      · rename_i none
        obtain ⟨behind, takes⟩ := takeNext_takes taken
        have guard := indirectSafe none (by rw [taken]; rfl)
        refine fits.take takes
          { fits.runs with
            indirect := keeps.extend _ fits.runs.indirect guard
            tables := fits.runs.emptied }
          (subperm_of_count fun x => ?_)
        have grown := count_extended (keeps.short _ guard) behind x
        simp only [count_blocks, count_append, flatten_append, flatMap_append,
          flatten_singleton, flatMap_nil, count_nil]
        omega
      · cases taken
    · simp only
      split
      · rename_i beyond
        exact growDouble_fits keeps fits fun double => doubleSafe double beyond
      · exact addTable_fits fits

theorem indirectBmap_fits (safe : IndirectSafe f G block fuel w) :
    Fits f Q others (indirectBmap f block fuel w).2 := by
  induction fuel generalizing w with
  | zero => exact fits
  | succ fuel ih =>
    rw [IndirectSafe] at safe
    split at safe
    · rename_i disk found
      rw [indirectBmap, found]
      exact fits
    · rename_i t j covered found
      rw [indirectBmap, found]
      simp only
      split
      · exact fits
      · rename_i near
        exact fillSlot_fits keeps fits (safe near)
    · rename_i t found
      rw [indirectBmap, found]
      have grown := growTable_fits keeps fits safe.1
      simp only
      split
      · rename_i e w' done
        rw [done] at grown
        exact grown
      · rename_i w' done
        rw [done] at grown
        exact ih grown (safe.2 w' done)

theorem growDirect_fits {nrun lastLen covered : Nat}
    (last : ∀ r, w.stream.direct[nrun - 1]? = some r → 0 < nrun → r.len.toNat = lastLen)
    (safe : GrowSafe f G block fuel w nrun lastLen covered) :
    Fits f Q others (growDirect f block fuel w nrun lastLen covered).2 := by
  induction fuel generalizing w nrun lastLen covered with
  | zero => exact fits
  | succ fuel ih =>
    rw [GrowSafe] at safe
    split at safe
    · -- the last run is extended
      rename_i s nb found
      rw [growDirect, found]
      split at found
      · rename_i some
        obtain ⟨r, here, taken⟩ := Option.bind_eq_some_iff.mp found
        obtain ⟨behind, takes⟩ := takeNext_takes taken
        have guard := safe.1 r here
        have short := keeps.short r guard
        have len := last r here some.1
        have grown : Fits f Q others ⟨s, { w.stream with
            direct := w.stream.direct.modify (nrun - 1) extend
            maxDirectRange := covered + 1 }⟩ := by
          refine fits.take takes { fits.runs with direct := fun q member => ?_ }
            (subperm_of_count fun x => ?_)
          · rcases mem_modify here member with rfl | old
            · exact keeps.extend r (fits.runs.direct r (mem_of_getElem? here)) guard
            · exact fits.runs.direct q old
          · have one := count_extended short (len ▸ behind) x
            have all := count_flatMap_modify (h := extend) (g := (·.blocks f.agShift)) here x
            simp only [count_blocks, count_append]
            omega
        simp only
        split
        · exact grown
        rename_i beyond
        refine ih grown (fun q atLast _ => ?_) (safe.2 beyond)
        rw [List.getElem?_modify_eq, here] at atLast
        cases atLast
        rw [extend_len short, len]
      · cases found
    · rename_i found
      rw [growDirect, found]
      simp only
      split at safe
      · rename_i all
        rw [if_pos all]
        exact indirectBmap_fits keeps fits safe
      · rename_i more
        rw [if_neg more]
        split
        · exact fits
        -- a window becomes the next run
        rename_i s nb wlen done
        obtain ⟨positive, few, group, inside, takes⟩ :=
          ballocContig_takes (by decide) done
        have blocks := made_blocks inside few
        have grown : Fits f Q others ⟨s, { w.stream with
            direct := w.stream.direct.take nrun ++ [make f.agShift nb wlen]
            maxDirectRange := covered + wlen }⟩ := by
          refine fits.take takes { fits.runs with direct := fun q member => ?_ }
            (subperm_of_count fun x => ?_)
          · rcases mem_append.mp member with old | new
            · exact fits.runs.direct q (mem_of_mem_take old)
            · rw [mem_singleton.mp new]
              exact keeps.make nb wlen inside positive few group
          · have fewer := ((take_sublist nrun w.stream.direct).flatMap
              (·.blocks f.agShift)).count_le x
            simp only [count_blocks, count_append, flatMap_append,
              flatMap_singleton, blocks] at fewer ⊢
            omega
        split
        · exact grown
        rename_i beyond
        refine ih grown (fun q atLast _ => ?_) (safe s nb wlen done beyond)
        rw [Nat.add_sub_cancel, List.getElem?_append_right (length_take_le _ _)] at atLast
        rw [mem_singleton.mp (mem_of_getElem? atLast)]
        have window : delallocWindow = 256 := rfl
        exact make_len (by omega)

theorem bmapWrite_fits (safe : BmapSafe f G w block) : Fits f Q others (bmapWrite f w block).2 := by
  rw [BmapSafe] at safe
  split at safe
  · rename_i disk found
    rw [bmapWrite, found]
    exact fits
  · rename_i covered found
    rw [bmapWrite, found]
    exact indirectBmap_fits keeps fits safe
  · rename_i k covered found
    rw [bmapWrite, found]
    refine growDirect_fits keeps fits (fun r here _ => ?_) safe
    simp [here]

end Grow

/-! ## Shrinking -/

section Shrink

variable {f : Format} {G Q : Run → Prop} {others : Nat → Prop}

/-- What an array of runs maps is kept or freed. -/
theorem cutRuns_blocks (length : Nat) (runs : List Run) (covered : Nat) :
    ((cutRuns f length runs covered).1.flatMap (·.blocks f.agShift) ++
      (cutRuns f length runs covered).2.1).Perm (runs.flatMap (·.blocks f.agShift)) := by
  induction runs generalizing covered with
  | nil => exact List.Perm.refl _
  | cons r rest ih =>
    rw [cutRuns]
    split
    · simp
    have later := ih (covered + r.len.toNat * f.blockSize)
    have most := keepOf_le f length covered r.len.toNat
    have parts := cut_blocks f most
    rw [perm_iff_count] at later ⊢
    intro x
    have rest := later x
    have whole := congrArg (List.count x) parts
    simp only [count_append] at rest whole
    simp only [flatMap_cons, count_append]
    split
    · rename_i none
      rw [none] at whole ⊢
      have nothing : (r.cut 0).blocks f.agShift = [] := rfl
      rw [nothing, count_nil] at whole
      omega
    · rw [flatMap_cons, count_append]
      omega

theorem cutRuns_all (keeps : Keeps f G Q) (length : Nat) {runs : List Run} (covered : Nat)
    (all : ∀ r ∈ runs, Q r) : ∀ r ∈ (cutRuns f length runs covered).1, Q r := by
  induction runs generalizing covered with
  | nil => exact forall_mem_nil _
  | cons r rest ih =>
    have later := ih (covered + r.len.toNat * f.blockSize) (forall_mem_of_forall_mem_cons all)
    rw [cutRuns]
    split
    · exact all
    simp only
    split
    · exact later
    · intro q member
      rcases mem_cons.mp member with rfl | old
      · exact keeps.cut r _ (all r mem_cons_self) (keepOf_le _ _ _ _)
      · exact later q old

theorem cutTables_blocks (length : Nat) (tables : List (List Run)) (covered : Nat) :
    ((cutTables f length tables covered).1.flatten.flatMap (·.blocks f.agShift) ++
      (cutTables f length tables covered).2).Perm
        (tables.flatten.flatMap (·.blocks f.agShift)) := by
  induction tables generalizing covered with
  | nil => exact List.Perm.refl _
  | cons runs rest ih =>
    have first := cutRuns_blocks (f := f) length runs covered
    have later := ih (cutRuns f length runs covered).2.2
    rw [perm_iff_count] at first later ⊢
    intro x
    have first := first x
    have later := later x
    simp only [cutTables, flatten_cons, flatMap_append, count_append] at *
    omega

theorem cutTables_all (keeps : Keeps f G Q) (length : Nat) {tables : List (List Run)}
    (covered : Nat) (all : ∀ runs ∈ tables, ∀ r ∈ runs, Q r) :
    ∀ runs ∈ (cutTables f length tables covered).1, ∀ r ∈ runs, Q r := by
  induction tables generalizing covered with
  | nil => exact forall_mem_nil _
  | cons runs rest ih =>
    intro l member
    rcases mem_cons.mp member with rfl | later
    · exact cutRuns_all keeps length covered (all runs mem_cons_self)
    · exact ih _ (forall_mem_of_forall_mem_cons all) l later

variable {w : Work}

theorem Fits.free (fits : Fits f Q others w) {st : Stream} {bs : List Nat} (runs : st.All Q)
    (blocks : (st.blocks f.agShift ++ bs).Subperm (w.stream.blocks f.agShift)) :
    Fits f Q others ⟨bfreeAll f w.space bs, st⟩ :=
  fits.give (bfreeAll_gives w.space fun b freed =>
    fits.inside b (blocks.subset (mem_append_right _ freed))) runs blocks

/-- What a cut leaves and frees, the stream held. -/
theorem truncateStream_subperm (st : Stream) (length : Nat) :
    ((truncateStream f st length).1.blocks f.agShift ++ (truncateStream f st length).2).Subperm
      (st.blocks f.agShift) := by
  have cutDirect := cutRuns_blocks (f := f) length st.direct 0
  have cutTables := cutTables_blocks (f := f) length st.tables (st.maxDirectRange * f.blockSize)
  rw [perm_iff_count] at cutDirect cutTables
  simp only [count_append] at cutDirect cutTables
  have zero : Run.zero.blocks f.agShift = [] := rfl
  refine subperm_of_count fun x => ?_
  have := cutDirect x
  have := cutTables x
  rw [truncateStream]
  split
  · simp only [count_blocks, count_append, zero, count_nil, flatten_nil,
      flatMap_nil]
    omega
  · simp only [count_blocks, count_append]
    omega

theorem truncateStream_fits (keeps : Keeps f G Q) (fits : Fits f Q others w) (length : Nat) :
    Fits f Q others ⟨bfreeAll f w.space (truncateStream f w.stream length).2,
      (truncateStream f w.stream length).1⟩ := by
  have direct := cutRuns_all keeps length 0 fits.runs.direct
  have tables := cutTables_all keeps length (w.stream.maxDirectRange * f.blockSize) fits.runs.tables
  refine fits.free ?_ (truncateStream_subperm w.stream length)
  rw [truncateStream]
  split
  · exact ⟨direct, keeps.zero, keeps.zero, by simp⟩
  · exact ⟨direct, fits.runs.indirect, fits.runs.double, tables⟩

/-- What the stream held, it holds or gives back. -/
theorem trimStream_perm (st : Stream) (size : Nat) :
    ((trimStream f st size).1.blocks f.agShift ++ (trimStream f st size).2).Perm
      (st.blocks f.agShift) := by
  rw [trimStream]
  split
  · simp
  rename_i last found
  split
  · simp
  have most : last.len.toNat - min ((coveredBy st.direct).2 -
      (size + f.blockSize - 1) / f.blockSize) last.len.toNat ≤ last.len.toNat := Nat.sub_le _ _
  generalize last.len.toNat - min ((coveredBy st.direct).2 -
    (size + f.blockSize - 1) / f.blockSize) last.len.toNat = keep at most ⊢
  rw [perm_iff_count]
  intro x
  have parts : ((last.cut keep).blocks f.agShift).count x +
      (tailBlocks f last keep).count x = (last.blocks f.agShift).count x := by
    rw [← count_append, cut_blocks f most]
  simp only [count_blocks, count_append]
  split
  · rename_i none
    subst none
    have nothing : (last.cut 0).blocks f.agShift = [] := rfl
    rw [nothing, count_nil] at parts
    have rest := count_flatMap_eraseIdx (g := (·.blocks f.agShift)) found x
    omega
  · have rest := count_flatMap_modify (h := fun r => r.cut keep)
      (g := (·.blocks f.agShift)) found x
    omega

theorem trimStream_fits (keeps : Keeps f G Q) (fits : Fits f Q others w) (size : Nat) :
    Fits f Q others ⟨bfreeAll f w.space (trimStream f w.stream size).2,
      (trimStream f w.stream size).1⟩ := by
  refine fits.free ?_ (trimStream_perm w.stream size).subperm
  rw [trimStream]
  simp only
  split
  · exact fits.runs
  rename_i last found
  split
  · exact fits.runs
  refine { fits.runs with direct := fun q member => ?_ }
  split at member
  · exact fits.runs.direct q (mem_of_mem_eraseIdx member)
  · rcases mem_modify found member with rfl | old
    · exact keeps.cut last _ (fits.runs.direct last (mem_of_getElem? found)) (Nat.sub_le _ _)
    · exact fits.runs.direct q old

end Shrink

end Argentum.Agfs
