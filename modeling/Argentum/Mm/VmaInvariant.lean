/-
# Mm.VmaInvariant — regions stay sorted, non-empty and apart

The regions of a process cover a set of addresses (`Lib.Spans`). Inserting a region that meets
no other adds to that set, freeing a part takes it away.

`region_list_invariant` says that every run of `mmap`, `munmap`, `mprotect`, `brk` and stack faults
keeps the list in order, under `SafeLabel`. It leaves out the calls that break it
(`regions_overlap`) and lengths that do not fit `__size_t` or `__ssize_t`.
-/
import Argentum.Lib.Machine
import Argentum.Lib.Spans
import Argentum.Mm.Vma
import Mathlib.Data.List.TakeWhile

namespace Argentum.Mm

open Lib Lib.Machine List

/-! ## In order -/

/-- Sorted by start address, no region empty, no two overlapping. -/
structure WellFormed (vs : List Vma) : Prop where
  sorted : vs.Pairwise fun a b => a.start ≤ b.start
  nonempty : ∀ r ∈ vs, r.start < r.stop
  disjoint : vs.Pairwise fun a b => a.stop ≤ b.start ∨ b.stop ≤ a.start

/-- Bounds that `do_mmap` gives: whole pages of the user half. -/
def UserPages (r : Vma) : Prop :=
  r.start % pageSize = 0 ∧ r.stop % pageSize = 0 ∧ r.stop ≤ userStackTop

instance (r : Vma) : Decidable (UserPages r) := inferInstanceAs (Decidable (_ ∧ _))

structure Space (vs : List Vma) : Prop where
  spans : Spans Vma.start Vma.stop vs
  user : ∀ r ∈ vs, UserPages r

def mapped (vs : List Vma) : Set Nat := cover Vma.start Vma.stop vs

open Vma

theorem wellFormed_iff {vs : List Vma} : WellFormed vs ↔ Spans start stop vs := by
  constructor
  · intro wf
    refine ⟨wf.nonempty, ?_⟩
    have both := wf.sorted.and wf.disjoint
    refine both.imp_of_mem ?_
    rintro a b inA inB ⟨le, apart | apart⟩
    · exact apart
    · have := wf.nonempty b inB
      omega
  · intro spans
    refine ⟨?_, spans.nonempty, spans.apart.imp .inl⟩
    refine spans.apart.imp_of_mem ?_
    intro a b inA _ apart
    exact (spans.nonempty a inA).le.trans apart

/-! ## Numbers -/

section Numbers

variable {a b : Nat}

theorem add64_eq (fits : a + b < 2 ^ 64) : add64 a b = a + b := Nat.mod_eq_of_lt fits

theorem sub64_eq (le : b ≤ a) (fits : a < 2 ^ 64) : sub64 a b = a - b := by
  unfold sub64
  omega

theorem sub32_eq (le : b ≤ a) (fits : a < 2 ^ 32) : sub32 a b = a - b := by
  unfold sub32
  omega

theorem ssize_eq (small : a < 2 ^ 31) : ssize a = a := by
  unfold ssize
  have low : a % 2 ^ 32 = a := Nat.mod_eq_of_lt (by omega)
  simp only [low, small, if_true]

theorem pageMask_mod (a : Nat) : pageMask a % pageSize = 0 := Nat.mul_mod_left _ _

theorem pageMask_le (a : Nat) : pageMask a ≤ a := Nat.div_mul_le_self _ _

theorem pageMask_of_mod (aligned : a % pageSize = 0) : pageMask a = a :=
  Nat.div_mul_cancel (Nat.dvd_of_mod_eq_zero aligned)

theorem pageAlign_mod (a : Nat) : pageAlign a % pageSize = 0 := pageMask_mod _

theorem pageAlign_of_mod (aligned : a % pageSize = 0) (fits : a ≤ userStackTop) :
    pageAlign a = a := by
  unfold pageAlign pageMask add64 pageSize userStackTop at *
  omega

theorem pageAlign32_lt (a : Nat) : pageAlign32 a < 2 ^ 32 := by
  unfold pageAlign32 pageMask pageSize
  omega

end Numbers

/-! ## Inserting -/

open Space

section Insert

variable {vs pre post : List Vma} {v a : Vma} {mem : List Bool}

/-- Where `v` goes when the regions before it begin no later and those behind it later. -/
theorem place_eq (before : ∀ r ∈ pre, r.start ≤ v.start) (after : ∀ r ∈ post, v.start < r.start) :
    (pre ++ post).takeWhile (fun r => decide (r.start ≤ v.start)) = pre ∧
      (pre ++ post).dropWhile (fun r => decide (r.start ≤ v.start)) = post := by
  have all : ∀ r ∈ pre, decide (r.start ≤ v.start) = true := fun r member => by
    simpa using before r member
  rw [takeWhile_append_of_pos all, dropWhile_append_of_pos all]
  cases post with
  | nil => simp
  | cons r post =>
    have late : ¬r.start ≤ v.start := by simpa using after r mem_cons_self
    simp [late]

/-- `v` does not touch the region before it, if there is one. -/
theorem insertVmaRegion_gap (before : ∀ r ∈ pre, r.start ≤ v.start)
    (clear : ∀ a ∈ pre.getLast?, a.stop < v.start) (after : ∀ r ∈ post, v.start < r.start) :
    insertVmaRegion (pre ++ post) v mem = (pre ++ v :: post, mem) := by
  obtain ⟨take, drop⟩ := place_eq before after
  rw [insertVmaRegion.eq_def, place]
  simp only [take, drop]
  rcases eq_nil_or_concat' pre with rfl | ⟨init, a, rfl⟩
  · rcases eq_nil_or_concat' post with rfl | ⟨init, a, rfl⟩
    · simp
    · have late := after a (by simp)
      have apart : ¬(a.start ≤ v.start ∧ v.start ≤ a.stop) := by omega
      simp [apart]
  · have ends := clear a (by simp)
    have apart : ¬(a.start ≤ v.start ∧ v.start ≤ a.stop) := by omega
    simp [apart]

/-- `v` begins where the region before it ends. -/
theorem insertVmaRegion_touch (before : ∀ r ∈ pre ++ [a], r.start ≤ v.start)
    (touch : a.stop = v.start) (after : ∀ r ∈ post, v.start < r.start) :
    insertVmaRegion (pre ++ [a] ++ post) v mem =
      (if canBeMerged a v then pre ++ { a with stop := v.stop } :: post
        else pre ++ a :: v :: post, mem) := by
  obtain ⟨take, drop⟩ := place_eq before after
  have early := before a (by simp)
  rw [insertVmaRegion.eq_def, place]
  simp only [take, drop]
  by_cases merged : canBeMerged a v
  · simp [early, touch, merged]
  · simp [touch, merged]

/-- `v` lies inside the region before it: that region is cut. -/
theorem insertVmaRegion_cut (before : ∀ r ∈ pre ++ [a], r.start ≤ v.start)
    (inside : v.start < a.stop) (ends : v.stop < a.stop) (after : ∀ r ∈ post, v.start < r.start) :
    insertVmaRegion (pre ++ [a] ++ post) v (true :: mem) =
      insertVmaRegion (pre ++ (if a.start = v.start then [] else [{ a with stop := v.start }]) ++
        v :: post) { a with start := v.stop, object := none } mem := by
  obtain ⟨take, drop⟩ := place_eq before after
  have early := before a (by simp)
  rw [insertVmaRegion.eq_def, place]
  simp only [take, drop]
  simp [early, inside.le, inside.ne, inside, ends]

theorem Space.middle_iff :
    Space (pre ++ v :: post) ↔ Space (pre ++ post) ∧ v.start < v.stop ∧ UserPages v ∧
      (∀ r ∈ pre, r.stop ≤ v.start) ∧ ∀ r ∈ post, v.stop ≤ r.start := by
  have user : (∀ r ∈ pre ++ v :: post, UserPages r) ↔
      (∀ r ∈ pre ++ post, UserPages r) ∧ UserPages v := by
    simp only [forall_mem_append, forall_mem_cons]
    tauto
  constructor
  · rintro ⟨spans, all⟩
    obtain ⟨rest, nonempty, before, after⟩ := Spans.middle_iff.mp spans
    exact ⟨⟨rest, (user.mp all).1⟩, nonempty, (user.mp all).2, before, after⟩
  · rintro ⟨⟨rest, all⟩, nonempty, own, before, after⟩
    exact ⟨Spans.middle_iff.mpr ⟨rest, nonempty, before, after⟩, user.mpr ⟨all, own⟩⟩

theorem Space.cons_iff :
    Space (v :: post) ↔
      Space post ∧ v.start < v.stop ∧ UserPages v ∧ ∀ r ∈ post, v.stop ≤ r.start := by
  have middle : Space ([] ++ v :: post) ↔ _ := middle_iff
  simpa using middle

/-- A region gives way to regions inside it. -/
theorem Space.replace {mid : List Vma} (space : Space (pre ++ a :: post))
    (new : Spans start stop mid) (inside : ∀ b ∈ mid, a.start ≤ b.start ∧ b.stop ≤ a.stop)
    (user : ∀ b ∈ mid, UserPages b) : Space (pre ++ mid ++ post) := by
  refine ⟨space.spans.replace new inside, fun b member => ?_⟩
  simp only [mem_append] at member
  rcases member with (h | h) | h
  · exact space.user b (by simp [h])
  · exact user b h
  · exact space.user b (by simp [h])

/-- A region is cut in two. -/
theorem Space.split {b c : Vma} (space : Space (pre ++ a :: post)) (first : b.start = a.start)
    (last : c.stop = a.stop) (meet : b.stop = c.start) (front : b.start < b.stop)
    (back : c.start < c.stop) (aligned : b.stop % pageSize = 0) : Space (pre ++ b :: c :: post) := by
  have user := space.user a (by simp)
  have new : Space (pre ++ [b, c] ++ post) := by
    refine space.replace ⟨by simp [front, back], by simp [meet]⟩ ?_ ?_
    · simp only [forall_mem_cons]
      exact ⟨by omega, by omega, by simp⟩
    · simp only [forall_mem_cons]
      unfold UserPages pageSize at *
      exact ⟨by omega, by omega, by simp⟩
  simpa using new

/-- `insert_vma_region` of a region whose place is between `pre` and `post`. -/
theorem insertVmaRegion_between (mem : List Bool) (space : Space (pre ++ v :: post)) :
    (insertVmaRegion (pre ++ post) v mem).1 = pre ++ v :: post ∨
      ∃ init a, pre = init ++ [a] ∧ a.stop = v.start ∧ canBeMerged a v = true ∧
        (insertVmaRegion (pre ++ post) v mem).1 = init ++ { a with stop := v.stop } :: post := by
  obtain ⟨rest, nonempty, -, before, after⟩ := middle_iff.mp space
  have early : ∀ r ∈ pre, r.start ≤ v.start := fun r member =>
    (rest.spans.nonempty r (mem_append_left _ member)).le.trans (before r member)
  have late : ∀ r ∈ post, v.start < r.start := fun r member => nonempty.trans_le (after r member)
  rcases eq_nil_or_concat' pre with rfl | ⟨init, a, rfl⟩
  · rw [insertVmaRegion_gap early (by simp) late]
    exact .inl rfl
  · rcases (before a (by simp)).lt_or_eq with clear | touch
    · rw [insertVmaRegion_gap early (by simpa using clear) late]
      exact .inl rfl
    · rw [insertVmaRegion_touch early touch late]
      split
      case isTrue merged => exact .inr ⟨init, a, rfl, touch, merged, rfl⟩
      case isFalse => exact .inl (by simp)

theorem insertVmaRegion_space (mem : List Bool) (space : Space (pre ++ v :: post)) :
    Space (insertVmaRegion (pre ++ post) v mem).1 := by
  rcases insertVmaRegion_between mem space with same | ⟨init, a, rfl, -, -, same⟩
  · rwa [same]
  rw [append_assoc, singleton_append] at space
  obtain ⟨tail, -, userA, -, -⟩ := middle_iff.mp space
  obtain ⟨rest, -, user, -, -⟩ := middle_iff.mp tail
  rw [same]
  have all := forall_mem_append.mp rest.user
  exact ⟨space.spans.join rfl rfl,
    forall_mem_append.mpr ⟨all.1, forall_mem_cons.mpr ⟨⟨userA.1, user.2⟩, all.2⟩⟩⟩

/-- The place of a region that meets no other. -/
theorem exists_between (space : Space vs) (nonempty : v.start < v.stop) (user : UserPages v)
    (apart : ∀ r ∈ vs, r.stop ≤ v.start ∨ v.stop ≤ r.start) :
    ∃ pre post, vs = pre ++ post ∧ Space (pre ++ v :: post) := by
  refine ⟨vs.takeWhile fun r => decide (r.start ≤ v.start),
    vs.dropWhile fun r => decide (r.start ≤ v.start), takeWhile_append_dropWhile.symm, ?_⟩
  rw [middle_iff, takeWhile_append_dropWhile]
  refine ⟨space, nonempty, user, fun r member => ?_, fun r member => ?_⟩
  · have early : r.start ≤ v.start := by simpa using mem_takeWhile_imp member
    have := apart r ((takeWhile_sublist _).subset member)
    omega
  · have late := space.spans.lo_dropWhile v.start r member
    have inside := (dropWhile_sublist _).subset member
    have := apart r inside
    have := space.spans.nonempty r inside
    omega

/-- Whatever starts where a region did, no region up to it starts later. -/
theorem Space.early {r x : Vma} {pre post : List Vma} (space : Space (pre ++ r :: post))
    (first : x.start = r.start) {n : Nat} (low : r.start ≤ n) : ∀ b ∈ pre ++ [x], b.start ≤ n := by
  obtain ⟨-, -, before, -⟩ := Spans.middle_iff.mp space.spans
  refine forall_mem_append.mpr ⟨fun b h => ?_, forall_mem_singleton.mpr (first.trans_le low)⟩
  have := before b h
  have := space.spans.nonempty b (by simp [h])
  omega

/-- `insert_vma_region` of a region that lies inside another: that one is cut in two. -/
theorem insertVmaRegion_inside (space : Space vs) (nonempty : v.start < v.stop) (user : UserPages v)
    (member : a ∈ vs) (low : a.start ≤ v.start) (high : v.stop < a.stop) :
    Space (insertVmaRegion vs v (true :: mem)).1 := by
  obtain ⟨pre, post, rfl⟩ := append_of_mem member
  obtain ⟨-, -, -, -, after⟩ := middle_iff.mp space
  have early := space.early rfl low
  have late : ∀ r ∈ post, v.start < r.start := fun r h => by
    have := after r h
    omega
  rw [← singleton_append, ← append_assoc, insertVmaRegion_cut early (by omega) high late]
  by_cases whole : a.start = v.start
  · have cut := space.split (c := { a with start := v.stop, object := none }) whole.symm rfl rfl
      nonempty high user.2.1
    rw [append_cons] at cut
    simpa [whole] using insertVmaRegion_space mem cut
  · have rear := space.split (b := { a with stop := v.stop })
      (c := { a with start := v.stop, object := none }) rfl rfl rfl (low.trans_lt nonempty) high
      user.2.1
    have cut := rear.split (b := { a with stop := v.start }) (c := v) rfl rfl rfl
      (lt_of_le_of_ne low whole) nonempty user.1
    rw [append_cons, append_cons] at cut
    simpa [whole] using insertVmaRegion_space mem cut

end Insert

/-! ## What an address sees -/

abbrev View := Nat × Nat × Option (Nat × UInt32)

/-- Protection, flags, and the inode with the file offset that belongs to `x`. -/
def Vma.view (r : Vma) (x : Nat) : View :=
  (r.prot, r.flags, r.inode.map fun i => (i, r.offset + .ofNat (x - r.start)))

def Vma.Shows (r : Vma) (x : Nat) (k : View) : Prop := (r.start ≤ x ∧ x < r.stop) ∧ r.view x = k

def Sees (vs : List Vma) (x : Nat) (k : View) : Prop := ∃ r ∈ vs, r.Shows x k

section Views

variable {vs pre post : List Vma} {r a v : Vma} {x : Nat} {k : View} {bound : Nat}

theorem sees_append : Sees (pre ++ post) x k ↔ Sees pre x k ∨ Sees post x k := by
  simp only [Sees, mem_append, or_and_right, exists_or]

theorem sees_cons : Sees (r :: vs) x k ↔ r.Shows x k ∨ Sees vs x k := by
  simp only [Sees, mem_cons, exists_eq_or_imp]

theorem mem_mapped_iff : x ∈ mapped vs ↔ ∃ k, Sees vs x k := by
  constructor
  · rintro ⟨r, member, inside⟩
    exact ⟨_, r, member, inside, rfl⟩
  · rintro ⟨k, r, member, inside, -⟩
    exact ⟨r, member, inside⟩

/-- The file offset moves with the start of a region. -/
theorem offset_moved (offset : UInt32) {start : Nat} (low : start ≤ bound) (high : bound ≤ x) :
    offset + .ofNat (bound - start) + .ofNat (x - bound) = offset + .ofNat (x - start) := by
  rw [UInt32.add_assoc, ← UInt32.ofNat_add]
  congr 2
  omega

theorem shows_front (high : bound ≤ r.stop) :
    Vma.Shows { r with stop := bound } x k ↔ r.Shows x k ∧ x < bound := by
  unfold Vma.Shows view
  simp only
  constructor
  · exact fun ⟨inside, same⟩ => ⟨⟨⟨inside.1, inside.2.trans_le high⟩, same⟩, inside.2⟩
  · exact fun ⟨⟨inside, same⟩, front⟩ => ⟨⟨inside.1, front⟩, same⟩

theorem shows_back (low : r.start ≤ bound) :
    Vma.Shows { r with start := bound, offset := r.offset + .ofNat (bound - r.start) } x k ↔
      r.Shows x k ∧ bound ≤ x := by
  unfold Vma.Shows view
  simp only
  constructor
  · rintro ⟨inside, same⟩
    rw [offset_moved _ low inside.1] at same
    exact ⟨⟨⟨low.trans inside.1, inside.2⟩, same⟩, inside.1⟩
  · rintro ⟨⟨inside, same⟩, back⟩
    rw [offset_moved _ low back]
    exact ⟨⟨back, inside.2⟩, same⟩

/-- A region and one that continues it. -/
theorem shows_merged (merged : canBeMerged a v = true) (low : a.start ≤ v.start)
    (ordered : v.start ≤ v.stop) (fits : v.start < 2 ^ 64) :
    Vma.Shows { a with stop := v.stop } x k ↔ a.Shows x k ∨ v.Shows x k := by
  simp only [canBeMerged, Bool.and_eq_true, beq_iff_eq] at merged
  obtain ⟨⟨⟨⟨⟨⟨touch, prot⟩, flags⟩, offset⟩, -⟩, -⟩, inode⟩ := merged
  have same : v.start ≤ x → v.view x = a.view x := by
    intro above
    unfold view
    rw [← prot, ← flags, ← inode]
    cases known : a.inode with
    | none => rfl
    | some i =>
      have offset : v.offset = a.offset + .ofNat (v.start - a.start) := by
        simp only [known, Option.isSome_some, if_true, beq_iff_eq, sub64_eq low fits] at offset
        apply UInt32.toNat_inj.mp
        have := v.offset.toNat_lt
        have := a.offset.toNat_lt
        rw [UInt32.toNat_add, UInt32.toNat_ofNat']
        unfold add64 at offset
        omega
      simp [offset, offset_moved _ low above]
  constructor
  · rintro ⟨inside, rfl⟩
    by_cases front : x < a.stop
    · exact .inl ⟨⟨inside.1, front⟩, rfl⟩
    · exact .inr ⟨⟨by omega, inside.2⟩, same (by omega)⟩
  · rintro (⟨inside, rfl⟩ | ⟨inside, rfl⟩)
    · exact ⟨⟨inside.1, by show x < v.stop; omega⟩, rfl⟩
    · exact ⟨⟨low.trans inside.1, inside.2⟩, (same inside.1).symm⟩

/-- A region that begins where another ends, merged with it or not. -/
theorem sees_touch (mem : List Bool) (before : ∀ r ∈ pre ++ [a], r.start ≤ v.start)
    (touch : a.stop = v.start) (ordered : v.start ≤ v.stop) (fits : v.start < 2 ^ 64)
    (after : ∀ r ∈ post, v.start < r.start) :
    Sees (insertVmaRegion (pre ++ [a] ++ post) v mem).1 x k ↔ Sees (pre ++ [a, v] ++ post) x k := by
  rw [insertVmaRegion_touch before touch after]
  split
  case isTrue merged =>
    have low := before a (by simp)
    simp only [sees_append, sees_cons, shows_merged merged low ordered fits, or_assoc]
    simp [Sees]
  case isFalse => simp

/-- Inserting a region adds its addresses. -/
theorem sees_insert (mem : List Bool) (space : Space (pre ++ v :: post)) :
    Sees (insertVmaRegion (pre ++ post) v mem).1 x k ↔ Sees (pre ++ v :: post) x k := by
  rcases insertVmaRegion_between mem space with same | ⟨init, a, rfl, touch, merged, same⟩
  · rw [same]
  · obtain ⟨rest, nonempty, user, before, -⟩ := middle_iff.mp space
    have nonemptyA := rest.spans.nonempty a (by simp)
    have low := before a (by simp)
    have fits : v.start < 2 ^ 64 := by
      unfold UserPages userStackTop at user
      omega
    rw [same, append_assoc, singleton_append]
    simp only [sees_append, sees_cons, shows_merged merged (by omega) nonempty.le fits, or_assoc]

/-- What takes the place of a region decides for its addresses only. -/
theorem sees_replace {mid : List Vma} {R : Nat → View → View → Prop}
    (space : Space (pre ++ r :: post)) (here : ∀ x k, Sees mid x k ↔ ∃ k₀, r.Shows x k₀ ∧ R x k₀ k)
    (others : ∀ x, ¬(r.start ≤ x ∧ x < r.stop) → ∀ k₀ k, R x k₀ k ↔ k₀ = k) :
    Sees (pre ++ mid ++ post) x k ↔ ∃ k₀, Sees (pre ++ r :: post) x k₀ ∧ R x k₀ k := by
  obtain ⟨-, -, -, before, after⟩ := middle_iff.mp space
  have inPre : ∀ k₀, Sees pre x k₀ → ∀ k, R x k₀ k ↔ k₀ = k := by
    rintro k₀ ⟨b, member, inside, -⟩
    have := before b member
    exact others x (by omega) k₀
  have inPost : ∀ k₀, Sees post x k₀ → ∀ k, R x k₀ k ↔ k₀ = k := by
    rintro k₀ ⟨b, member, inside, -⟩
    have := after b member
    exact others x (by omega) k₀
  simp only [sees_append, sees_cons, here]
  grind

end Views

/-! ## Unmapping -/

section Munmap

variable {vs pre post : List Vma} {r : Vma} {addr length : Nat} {mem : List Bool} {new : List Vma}

theorem splitAtRegion_some (found : splitAtRegion addr vs = some (pre, r, post)) :
    vs = pre ++ r :: post ∧ r.start ≤ addr ∧ addr < r.stop := by
  induction vs generalizing pre with
  | nil => cases found
  | cons b vs ih =>
    unfold splitAtRegion at found
    split at found
    case isTrue inside =>
      cases found
      exact ⟨rfl, inside⟩
    case isFalse =>
      obtain ⟨⟨pre', r', post'⟩, found, same⟩ := Option.map_eq_some_iff.mp found
      cases same
      obtain ⟨rfl, inside⟩ := ih found
      exact ⟨rfl, inside⟩

theorem splitAtRegion_none (none : splitAtRegion addr vs = none) : addr ∉ mapped vs := by
  induction vs with
  | nil => simp [mapped]
  | cons b vs ih =>
    unfold splitAtRegion at none
    split at none
    case isTrue => cases none
    case isFalse outside =>
      rw [Option.map_eq_none_iff] at none
      simp only [mapped, mem_cover_cons, not_or]
      exact ⟨outside, ih none⟩

/-- What is left of `r` when `[addr, addr + length)` is freed. -/
def leftOver (r : Vma) (addr length : Nat) : List Vma :=
  (if r.start = addr then [] else [{ r with stop := addr }]) ++
    if addr + length < r.stop then
      [{ r with start := addr + length, offset := r.offset + .ofNat (addr + length - r.start),
                object := none }]
    else []

theorem mem_leftOver {b : Vma} (member : b ∈ leftOver r addr length) :
    (b.start = r.start ∧ b.stop = addr ∧ r.start ≠ addr) ∨
      (b.start = addr + length ∧ b.stop = r.stop ∧ addr + length < r.stop) := by
  unfold leftOver at member
  rcases mem_append.mp member with h | h
  · split at h
    · cases h
    · simp only [mem_singleton] at h
      subst h
      exact .inl ⟨rfl, rfl, by assumption⟩
  · split at h
    · simp only [mem_singleton] at h
      subst h
      exact .inr ⟨rfl, rfl, by assumption⟩
    · cases h

/-- The list without `[addr, …)` of `r`, before what lies behind it is added again. -/
def withoutPart (pre : List Vma) (r : Vma) (post : List Vma) (addr : Nat) : List Vma :=
  if r.start = addr then pre ++ post else pre ++ { r with stop := addr } :: post

section

variable (space : Space (pre ++ r :: post))

include space

theorem bound_eq (high : addr + length ≤ r.stop) (small : length < 2 ^ 31) :
    add64 addr (ssize length) = addr + length := by
  have user := (space.user r (by simp)).2.2
  rw [ssize_eq small, add64_eq]
  unfold userStackTop at user
  omega

/-- `free_vma_region` of a part that a signed 32-bit length can hold. -/
theorem freeVmaRegion_done (low : r.start ≤ addr) (some : 0 < length)
    (high : addr + length ≤ r.stop) (small : length < 2 ^ 31)
    (memory : addr + length < r.stop → mem.head? = Option.some true) :
    freeVmaRegion vs (withoutPart pre r post addr) r addr length mem =
      (pre ++ leftOver r addr length ++ post, if addr + length < r.stop then mem.tail else mem) := by
  obtain ⟨rest, nonempty, before, after⟩ := Spans.middle_iff.mp space.spans
  have user := (space.user r (by simp)).2.2
  unfold freeVmaRegion
  simp only [bound_eq space high small]
  by_cases more : addr + length < r.stop
  · obtain ⟨rest, rfl⟩ : ∃ rest, mem = true :: rest := by
      have := memory more
      cases mem with
      | nil => cases this
      | cons m mem => exact ⟨mem, by simpa using this⟩
    have offset : sub64 (addr + length) r.start = addr + length - r.start :=
      sub64_eq (by omega) (by unfold userStackTop at user; omega)
    simp only [offset]
    have below : r.start ≤ addr + length := by omega
    have late : ∀ b ∈ post, addr + length < b.start := fun b h => more.trans_le (after b h)
    by_cases whole : r.start = addr
    · have step : withoutPart pre r post addr = pre ++ post := if_pos whole
      rw [step, insertVmaRegion_gap ?_ ?_ late]
      · simp [leftOver, whole, more]
      · exact fun b h => space.early rfl below b (mem_append_left _ h)
      · intro b h
        have := before b (mem_of_getLast? h)
        show b.stop < addr + length
        omega
    · have step : withoutPart pre r post addr = pre ++ [{ r with stop := addr }] ++ post := by
        simp [withoutPart, whole]
      rw [step, insertVmaRegion_gap ?_ ?_ late]
      · simp [leftOver, whole, more]
      · exact space.early (x := { r with stop := addr }) rfl below
      · intro b h
        obtain rfl : { r with stop := addr } = b := by simpa using h
        show addr < addr + length
        omega
  · by_cases whole : r.start = addr
    · simp [withoutPart, leftOver, whole, more]
    · simp [withoutPart, leftOver, whole, more]

theorem freeVmaRegion_failed (high : addr + length < r.stop) (small : length < 2 ^ 31)
    (noMemory : mem.head? ≠ Option.some true) (without : List Vma) :
    freeVmaRegion vs without r addr length mem = (vs, mem.tail) := by
  unfold freeVmaRegion
  simp only [bound_eq space high.le small, high, if_true]
  split
  · simp at noMemory
  · rfl

variable (low : r.start ≤ addr)

include low

/-- Freeing a part leaves the rest in order. -/
theorem space_leftOver (high : addr + length ≤ r.stop)
    (aligned : addr % pageSize = 0) (whole : length % pageSize = 0) :
    Space (pre ++ leftOver r addr length ++ post) := by
  have user := space.user r (by simp)
  have new : Spans start stop (leftOver r addr length) := by
    constructor
    · intro b member
      have := mem_leftOver member
      omega
    · unfold leftOver
      split <;> split <;> simp
  refine space.replace new (fun b member => ?_) fun b member => ?_
  · have := mem_leftOver member
    omega
  · unfold UserPages pageSize userStackTop at *
    have := mem_leftOver member
    omega

theorem sees_leftOver (high : addr + length ≤ r.stop) {x : Nat} {k : View} :
    Sees (pre ++ leftOver r addr length ++ post) x k ↔
      Sees (pre ++ r :: post) x k ∧ ¬(addr ≤ x ∧ x < addr + length) := by
  have here : ∀ x k, Sees (leftOver r addr length) x k ↔
      ∃ k₀, r.Shows x k₀ ∧ k₀ = k ∧ ¬(addr ≤ x ∧ x < addr + length) := by
    intro x k
    have front : Sees (if r.start = addr then [] else [{ r with stop := addr }]) x k ↔
        r.Shows x k ∧ x < addr := by
      split
      · simp [Sees, Vma.Shows]
        omega
      · rw [← shows_front (by omega)]
        simp [Sees]
    have back : Sees (if addr + length < r.stop then
        [{ r with start := addr + length, offset := r.offset + .ofNat (addr + length - r.start),
                  object := none }] else []) x k ↔ r.Shows x k ∧ addr + length ≤ x := by
      split
      · rw [sees_cons, shows_back (r := { r with object := none }) (by show r.start ≤ _; omega)]
        simp [Sees, Vma.Shows, view]
      · simp [Sees, Vma.Shows]
        omega
    have outside : (x < addr ∨ addr + length ≤ x) ↔ ¬(addr ≤ x ∧ x < addr + length) := by omega
    rw [leftOver, sees_append, front, back, ← and_or_left, outside]
    simp
  rw [sees_replace space here]
  · simp
  · intro x outside k₀ k
    simp
    omega

theorem mapped_leftOver (high : addr + length ≤ r.stop) (x : Nat) :
    x ∈ mapped (pre ++ leftOver r addr length ++ post) ↔
      x ∈ mapped (pre ++ r :: post) ∧ ¬(addr ≤ x ∧ x < addr + length) := by
  simp only [mem_mapped_iff, sees_leftOver space low high, exists_and_right]

end

/-- Every region lies in an old one. -/
def Within (new old : List Vma) : Prop :=
  ∀ b ∈ new, ∃ r ∈ old, r.start ≤ b.start ∧ b.stop ≤ r.stop

theorem Within.refl (vs : List Vma) : Within vs vs := fun b member => ⟨b, member, le_rfl, le_rfl⟩

theorem Within.trans {a b c : List Vma} (first : Within a b) (second : Within b c) : Within a c := by
  intro x member
  obtain ⟨y, inB, lowY, highY⟩ := first x member
  obtain ⟨z, inC, lowZ, highZ⟩ := second y inB
  exact ⟨z, inC, lowZ.trans lowY, highY.trans highZ⟩

theorem Within.mapped (within : Within new vs) {x : Nat} (covered : x ∈ mapped new) :
    x ∈ Mm.mapped vs := by
  obtain ⟨b, member, inside⟩ := covered
  obtain ⟨r, inOld, start, stop⟩ := within b member
  exact ⟨r, inOld, start.trans inside.1, inside.2.trans_le stop⟩

theorem within_leftOver (pre post : List Vma) (low : r.start ≤ addr) (high : addr + length ≤ r.stop) :
    Within (pre ++ leftOver r addr length ++ post) (pre ++ r :: post) := by
  intro b member
  simp only [mem_append] at member
  rcases member with (h | h) | h
  · exact ⟨b, by simp [h], le_rfl, le_rfl⟩
  · refine ⟨r, by simp, ?_⟩
    have := mem_leftOver h
    omega
  · exact ⟨b, by simp [h], le_rfl, le_rfl⟩

/-- No region has 2 GiB or more in the range. -/
def SmallPieces (vs : List Vma) (addr length : Nat) : Prop :=
  ∀ r ∈ vs, min r.stop (addr + length) - max r.start addr < 2 ^ 31

theorem SmallPieces.within {addr' length' : Nat}
    (small : SmallPieces vs addr length) (within : Within new vs) (low : addr ≤ addr')
    (high : addr' + length' ≤ addr + length) : SmallPieces new addr' length' := by
  intro b member
  obtain ⟨r, inOld, start, stop⟩ := within b member
  have := small r inOld
  omega

/-- The arguments of the loop: whole pages of the user half, fewer than 4 GiB. -/
structure Range (addr length : Nat) : Prop where
  aligned : addr % pageSize = 0
  whole : length % pageSize = 0
  user : addr + length ≤ userStackTop
  fits : length < 2 ^ 32

theorem range_piece (range : Range addr length) (some : length ≠ 0) (space : Space (pre ++ r :: post))
    (low : r.start ≤ addr) (inside : addr < r.stop)
    (small : SmallPieces (pre ++ r :: post) addr length) :
    let size := min length (r.stop - addr)
    0 < size ∧ addr + size ≤ r.stop ∧ size < 2 ^ 31 ∧ size % pageSize = 0 ∧
      Range (addr + size) (length - size) := by
  have user := space.user r (by simp)
  have piece := small r (by simp)
  obtain ⟨aligned, whole, bound, fits⟩ := range
  unfold UserPages pageSize userStackTop at *
  refine ⟨by omega, by omega, by omega, by omega, ?_, ?_, ?_, by omega⟩
  · unfold pageSize
    omega
  · unfold pageSize
    omega
  · unfold userStackTop
    omega

/-- The piece that one round frees. -/
theorem size_eq (range : Range addr length) (inside : addr < r.stop) (user : r.stop ≤ userStackTop) :
    (if add64 addr length > r.stop then sub64 r.stop addr else length) =
        min length (r.stop - addr) ∧
      add64 addr (min length (r.stop - addr)) = addr + min length (r.stop - addr) ∧
      sub32 length (min length (r.stop - addr)) = length - min length (r.stop - addr) := by
  have bound := range.user
  unfold userStackTop at bound user
  rw [add64_eq (by omega), sub64_eq (by omega) (by omega)]
  exact ⟨by split <;> omega, add64_eq (by omega), sub32_eq (by omega) range.fits⟩

theorem munmapLoop_succ (range : Range addr length) (some : length ≠ 0)
    (found : findVmaRegion vs addr = Option.some (pre, r, post)) (inside : addr < r.stop)
    (user : r.stop ≤ userStackTop) (fuel : Nat) :
    munmapLoop (fuel + 1) vs addr length mem =
      let size := min length (r.stop - addr)
      let freed := freeVmaRegion vs (withoutPart pre r post addr) r addr size mem
      munmapLoop fuel freed.1 (addr + size) (length - size) freed.2 := by
  obtain ⟨size, next, left⟩ := size_eq range inside user
  rw [munmapLoop, if_neg some]
  simp only [found, size, next, left]
  rfl

/-- A region found at a page address holds it. -/
theorem findVmaRegion_some (aligned : addr % pageSize = 0)
    (found : findVmaRegion vs addr = Option.some (pre, r, post)) :
    vs = pre ++ r :: post ∧ r.start ≤ addr ∧ addr < r.stop := by
  unfold findVmaRegion at found
  split at found
  · cases found
  · rw [pageMask_of_mod aligned] at found
    exact splitAtRegion_some found

theorem findVmaRegion_none (aligned : addr % pageSize = 0) (positive : 0 < addr)
    (none : findVmaRegion vs addr = none) : addr ∉ mapped vs := by
  rw [findVmaRegion, if_neg (by omega), pageMask_of_mod aligned] at none
  exact splitAtRegion_none none

/-- One round: the part is freed, or the region cannot be split and stays. -/
theorem freed_cases (space : Space (pre ++ r :: post)) (low : r.start ≤ addr) (some : 0 < length)
    (high : addr + length ≤ r.stop) (small : length < 2 ^ 31) :
    freeVmaRegion (pre ++ r :: post) (withoutPart pre r post addr) r addr length mem =
        (pre ++ leftOver r addr length ++ post, if addr + length < r.stop then mem.tail else mem) ∨
      (addr + length < r.stop ∧ mem.head? ≠ Option.some true ∧
        freeVmaRegion (pre ++ r :: post) (withoutPart pre r post addr) r addr length mem =
          (pre ++ r :: post, mem.tail)) := by
  by_cases memory : addr + length < r.stop → mem.head? = Option.some true
  · exact .inl (freeVmaRegion_done space low some high small memory)
  · push Not at memory
    exact .inr ⟨memory.1, memory.2, freeVmaRegion_failed space memory.1 small memory.2 _⟩

section

variable (fuel : Nat) (mem : List Bool) (space : Space vs) (range : Range addr length)
  (small : SmallPieces vs addr length)

include space range small

theorem munmapLoop_space : Space (munmapLoop fuel vs addr length mem).1 ∧
      Within (munmapLoop fuel vs addr length mem).1 vs ∧
      ∀ x k, ¬(addr ≤ x ∧ x < addr + length) →
        (Sees (munmapLoop fuel vs addr length mem).1 x k ↔ Sees vs x k) := by
  induction fuel generalizing vs addr length mem with
  | zero => exact ⟨space, Within.refl vs, fun _ _ _ => Iff.rfl⟩
  | succ fuel ih =>
    by_cases some : length = 0
    · simpa [munmapLoop, some] using ⟨space, Within.refl vs⟩
    cases found : findVmaRegion vs addr with
    | none => simpa [munmapLoop, some, found] using ⟨space, Within.refl vs⟩
    | some split =>
      obtain ⟨pre, r, post⟩ := split
      obtain ⟨rfl, low, inside⟩ := findVmaRegion_some range.aligned found
      obtain ⟨positive, high, fits, whole, next⟩ := range_piece range some space low inside small
      rw [munmapLoop_succ range some found inside (space.user r (by simp)).2.2]
      simp only
      rcases freed_cases space low positive high fits with freed | ⟨-, -, freed⟩
      · rw [freed]
        have within := within_leftOver pre post low high
        obtain ⟨space', within', others⟩ := ih _ (space_leftOver space low high range.aligned whole)
          next (small.within within (by omega) (by omega))
        refine ⟨space', within'.trans within, fun x k outside => ?_⟩
        rw [others x k (by omega), sees_leftOver space low high]
        exact and_iff_left (by omega)
      · rw [freed]
        obtain ⟨space', within', others⟩ :=
          ih _ space next (small.within (Within.refl _) (by omega) (by omega))
        exact ⟨space', within', fun x k outside => others x k (by omega)⟩

/-- The mapped part of the range comes first. -/
def PrefixMapped (vs : List Vma) (addr length : Nat) : Prop :=
  ∀ x ∈ mapped vs, addr ≤ x → x < addr + length → ∀ y, addr ≤ y → y ≤ x → y ∈ mapped vs

theorem munmapLoop_clears (enough : length ≤ fuel) (positive : 0 < addr)
    (front : PrefixMapped vs addr length)
    (memory : ∀ r ∈ vs, r.start < addr + length → addr + length < r.stop → mem.head? = some true) :
    ∀ x, addr ≤ x → x < addr + length → x ∉ mapped (munmapLoop fuel vs addr length mem).1 := by
  induction fuel generalizing vs addr length mem with
  | zero => omega
  | succ fuel ih =>
    intro x start stop
    have some : length ≠ 0 := by omega
    cases found : findVmaRegion vs addr with
    | none =>
      have hole := findVmaRegion_none range.aligned positive found
      simp only [munmapLoop, some, found]
      exact fun covered => hole (front x covered start stop addr le_rfl start)
    | some split =>
      obtain ⟨pre, r, post⟩ := split
      obtain ⟨rfl, low, inside⟩ := findVmaRegion_some range.aligned found
      obtain ⟨nonzero, high, fits, whole, next⟩ := range_piece range some space low inside small
      rw [munmapLoop_succ range some found inside (space.user r (by simp)).2.2]
      simp only
      -- a split is needed only for a region that goes on behind the range
      rw [freeVmaRegion_done space low nonzero high fits
        fun more => memory r (by simp) (by omega) (by omega)]
      have spaceLeft := space_leftOver space low high range.aligned whole
      have within := within_leftOver pre post low high
      have smallLeft := small.within within (Nat.le_add_right addr _)
        (show addr + min length (r.stop - addr) + (length - min length (r.stop - addr)) ≤
          addr + length by omega)
      have removed := mapped_leftOver space low high
      by_cases here : x < addr + min length (r.stop - addr)
      · intro covered
        have left := (munmapLoop_space fuel _ spaceLeft next smallLeft).2.1.mapped covered
        exact ((removed x).mp left).2 ⟨start, here⟩
      · have last : ¬addr + min length (r.stop - addr) < r.stop := by omega
        rw [if_neg last]
        refine ih _ spaceLeft next smallLeft (by omega) (by omega) ?_ ?_ x (by omega) (by omega)
        · intro z covered startZ stopZ y startY le
          have old := (removed z).mp covered
          exact (removed y).mpr ⟨front z old.1 (by omega) (by omega) y (by omega) le, by omega⟩
        · intro b member startB stopB
          obtain ⟨old, inOld, startOld, stopOld⟩ := within b member
          exact memory old inOld (by omega) (by omega)

end

/-- Behind the user half there is nothing to unmap. -/
theorem munmapLoop_outside (fuel : Nat) (space : Space vs) (aligned : addr % pageSize = 0)
    (outside : userStackTop ≤ addr) : munmapLoop fuel vs addr length mem = (vs, mem) := by
  cases fuel with
  | zero => rfl
  | succ fuel =>
    cases found : findVmaRegion vs addr with
    | none => simp [munmapLoop, found]
    | some split =>
      obtain ⟨pre, r, post⟩ := split
      obtain ⟨rfl, -, inside⟩ := findVmaRegion_some aligned found
      have := (space.user r (by simp)).2.2
      omega

/-- The length that `do_munmap` works with. -/
def unmapLength (length : Nat) : Nat := pageAlign32 (length % 2 ^ 32)

def SafeMunmap (vs : List Vma) (addr length : Nat) : Prop :=
  addr % pageSize = 0 → addr + unmapLength length ≤ userStackTop →
    SmallPieces vs addr (unmapLength length)

theorem doMunmap_cases (mem : List Bool) (space : Space vs) (addr length : Nat) :
    doMunmap vs addr length mem = (.error .einval, vs, mem) ∨
      (userStackTop ≤ addr ∧ doMunmap vs addr length mem = (.ok (), vs, mem)) ∨
      (Range addr (unmapLength length) ∧ doMunmap vs addr length mem =
        (.ok (), munmapLoop (unmapLength length) vs addr (unmapLength length) mem)) := by
  unfold doMunmap
  split
  · exact .inl rfl
  case isFalse aligned =>
    have aligned : addr % pageSize = 0 := by simpa using aligned
    simp only
    split
    · exact .inl rfl
    case isFalse accepted =>
      rcases Nat.lt_or_ge addr userStackTop with below | outside
      · have fits := pageAlign32_lt (length % 2 ^ 32)
        have user : addr + unmapLength length ≤ userStackTop := by
          push Not at accepted
          have bound := accepted.2
          rwa [add64_eq (by unfold userStackTop at below; omega)] at bound
        exact .inr (.inr ⟨⟨aligned, pageMask_mod _, user, fits⟩, rfl⟩)
      · rw [munmapLoop_outside _ space aligned outside]
        exact .inr (.inl ⟨outside, rfl⟩)

theorem doMunmap_space (space : Space vs) (safe : SafeMunmap vs addr length) :
    Space (doMunmap vs addr length mem).2.1 := by
  rcases doMunmap_cases mem space addr length with same | ⟨-, same⟩ | ⟨range, same⟩
  · rwa [same]
  · rwa [same]
  · rw [same]
    exact (munmapLoop_space _ _ space range (safe range.aligned range.user)).1

end Munmap

/-! ## Mapping -/

section Mmap

variable {vs : List Vma} {start length : Nat} {mem : List Bool} {q : MmapArgs}

/-- The range can be unmapped for a new region: what is mapped in it has no hole in front of it, fits
the 32 bits of the length, and the last region can be split, by `do_munmap` or, if it holds the
whole range, by `merge_vma_regions`. -/
@[mk_iff]
structure Clearable (vs : List Vma) (start length : Nat) (mem : List Bool) : Prop where
  front : ∀ r ∈ vs, r.start < start + length → start < r.start → ∃ q ∈ vs, q.stop = r.start
  fits : ∀ r ∈ vs, r.start < start + length → start < r.stop →
    min r.stop (start + length) ≤ start + length % 2 ^ 32
  small : SmallPieces vs start (length % 2 ^ 32)
  memory : ∀ r ∈ vs, r.start < start + length → start + length < r.stop →
    mem.head? = some true ∨ (r.start ≤ start ∧ mem.tail.head? = some true)

theorem Clearable.prefixMapped (clearable : Clearable vs start length mem) (space : Space vs) :
    PrefixMapped vs start length := by
  intro x
  -- on `x`: a point before the region that holds `x` is in the region that ends there, or before
  induction x using Nat.strong_induction_on with
  | _ x ih =>
    rintro ⟨r, member, low, high⟩ above below y startY le
    by_cases inside : r.start ≤ y
    · exact ⟨r, member, inside, by omega⟩
    · obtain ⟨q, inList, ends⟩ := clearable.front r member (by omega) (by omega)
      have nonempty := space.spans.nonempty q inList
      exact ih (r.start - 1) (by omega) ⟨q, inList, by omega, by omega⟩ (by omega) (by omega) y
        startY (by omega)

/-- A range in which nothing is mapped. -/
theorem clearable_of_free (free : ∀ r ∈ vs, r.stop ≤ start ∨ start + length ≤ r.start)
    (space : Space vs) : Clearable vs start length mem := by
  refine ⟨?_, ?_, ?_, ?_⟩
  · intro r member low high
    have := free r member
    have := space.spans.nonempty r member
    omega
  · intro r member low high
    have := free r member
    omega
  · intro r member
    have := free r member
    omega
  · intro r member low high
    have := free r member
    omega

theorem unmapLength_of_mod (whole : length % pageSize = 0) :
    unmapLength length = length % 2 ^ 32 := by
  unfold unmapLength pageAlign32 pageMask pageSize at *
  omega

/-- A list that leaves the range free. -/
theorem apart_of_unmapped (space : Space vs)
    (clear : ∀ x, start ≤ x → x < start + length → x ∉ mapped vs) (some : 0 < length) :
    ∀ r ∈ vs, r.stop ≤ start ∨ start + length ≤ r.start := by
  intro r member
  by_contra both
  have nonempty := space.spans.nonempty r member
  exact clear (max r.start start) (by omega) (by omega) ⟨r, member, by omega, by omega⟩

/-- `do_munmap` in `do_mmap`, for a range of the user half. -/
theorem doMunmap_eq (aligned : start % pageSize = 0) (whole : length % pageSize = 0)
    (user : start + length ≤ userStackTop) :
    (doMunmap vs start length mem).2 =
      munmapLoop (length % 2 ^ 32) vs start (length % 2 ^ 32) mem := by
  have same : pageAlign32 (length % 2 ^ 32) = length % 2 ^ 32 := unmapLength_of_mod whole
  have accepted : ¬(length % 2 ^ 32 > userStackTop ∨
      add64 start (length % 2 ^ 32) > userStackTop) := by
    rw [add64_eq (by unfold userStackTop at user; omega)]
    omega
  rw [doMunmap, if_neg (by simpa using aligned)]
  simp only [same, if_neg accepted]

/-- The one region that holds the whole range could not be split. -/
theorem munmapLoop_held {r : Vma} (space : Space vs) (member : r ∈ vs) (range : Range start length)
    (positive : 0 < start) (some : 0 < length) (low : r.start ≤ start)
    (high : start + length < r.stop) (small : SmallPieces vs start length)
    (noMemory : mem.head? ≠ Option.some true) :
    munmapLoop length vs start length mem = (vs, mem.tail) := by
  obtain ⟨fuel, rfl⟩ : ∃ fuel, length = fuel + 1 := ⟨length - 1, by omega⟩
  cases found : findVmaRegion vs start with
  | none =>
    have hole := findVmaRegion_none range.aligned positive found
    exact absurd ⟨r, member, low, by omega⟩ hole
  | some split =>
    obtain ⟨pre, q, post⟩ := split
    obtain ⟨rfl, lowQ, inside⟩ := findVmaRegion_some range.aligned found
    obtain rfl := space.spans.unique member (by simp) ⟨low, by omega⟩ ⟨lowQ, inside⟩
    have size : min (fuel + 1) (r.stop - start) = fuel + 1 := by omega
    obtain ⟨-, -, fits, -, -⟩ := range_piece range (by omega) space low inside small
    rw [size] at fits
    rw [munmapLoop_succ range (by omega) found inside (space.user r member).2.2]
    simp only [size, Nat.sub_self, freeVmaRegion_failed space high fits noMemory]
    cases fuel <;> rfl

/-- Unmapping and inserting, in a range that can be cleared. -/
theorem mmap_space {v : Vma} (space : Space vs) (clearable : Clearable vs start length mem)
    (aligned : start % pageSize = 0) (whole : length % pageSize = 0) (positive : 0 < start)
    (some : 0 < length) (user : start + length ≤ userStackTop) (first : v.start = start)
    (last : v.stop = start + length) :
    Space (doMunmap vs start length mem).2.1 ∧
      Space (insertVmaRegion (doMunmap vs start length mem).2.1 v
        (doMunmap vs start length mem).2.2).1 := by
  have range : Range start (length % 2 ^ 32) := by
    refine ⟨aligned, ?_, by omega, by omega⟩
    unfold pageSize at *
    omega
  have userV : UserPages v := by
    unfold UserPages
    rw [last]
    unfold pageSize at *
    omega
  rw [doMunmap_eq aligned whole user]
  have unmapped := munmapLoop_space (length % 2 ^ 32) mem space range clearable.small
  refine ⟨unmapped.1, ?_⟩
  have nonempty : v.start < v.stop := by omega
  by_cases held : ∃ r ∈ vs, r.start ≤ start ∧ start + length < r.stop ∧ mem.head? ≠ Option.some true
  · obtain ⟨r, member, low, high, noMemory⟩ := held
    have fits := clearable.fits r member (by omega) (by omega)
    have short : length % 2 ^ 32 = length := by omega
    have tail := ((clearable.memory r member (by omega) high).resolve_left noMemory).2
    obtain ⟨rest, memory⟩ : ∃ rest, mem.tail = true :: rest :=
      ⟨mem.tail.tail, eq_cons_of_mem_head? tail⟩
    have small := clearable.small
    rw [short] at range small ⊢
    rw [munmapLoop_held space member range positive some low high small noMemory, memory]
    exact insertVmaRegion_inside space nonempty userV member (by omega) (by omega)
  · have clear : ∀ x, start ≤ x → x < start + length →
        x ∉ mapped (munmapLoop (length % 2 ^ 32) vs start (length % 2 ^ 32) mem).1 := by
      intro x low high covered
      obtain ⟨r, member, startR, stopR⟩ := unmapped.2.1.mapped covered
      have fits := clearable.fits r member (by omega) (by omega)
      refine munmapLoop_clears (length % 2 ^ 32) mem space range clearable.small le_rfl
        positive ?_ ?_ x low (by omega) covered
      · intro z inside above below
        exact clearable.prefixMapped space z inside above (by omega)
      · intro b inList startB stopB
        push Not at held
        have fitsB := clearable.fits b inList (by omega) (by omega)
        rcases clearable.memory b inList (by omega) (by omega) with memory | ⟨lowB, -⟩
        · exact memory
        · exact held b inList lowB (by omega)
    have apart := apart_of_unmapped unmapped.1 clear some
    obtain ⟨pre, post, same, placed⟩ :=
      exists_between unmapped.1 nonempty userV (by rwa [first, last])
    rw [same]
    exact insertVmaRegion_space _ placed

/-- `get_unmapped_vma_region` finds room between the regions above `MMAP_START`. -/
theorem unmappedFrom_room (addr : Nat) (space : Space vs) (aligned : addr % pageSize = 0)
    (user : addr ≤ userStackTop) (above : ∀ r ∈ vs, mmapStart ≤ r.start → addr ≤ r.start)
    (found : unmappedFrom length addr vs = start) (nonzero : start ≠ 0) :
    start % pageSize = 0 ∧ addr ≤ start ∧ start + length ≤ userStackTop ∧
      ∀ r ∈ vs, mmapStart ≤ r.start → r.stop ≤ start ∨ start + length ≤ r.start := by
  induction vs generalizing addr with
  | nil => exact absurd found.symm nonzero
  | cons r vs ih =>
    obtain ⟨apart, nonempty, userR, later⟩ := cons_iff.mp space
    unfold unmappedFrom at found
    split at found
    case isTrue early =>
      obtain ⟨whole, low, high, room⟩ :=
        ih addr apart aligned user (forall_mem_of_forall_mem_cons above) found
      refine ⟨whole, low, high, fun b member startB => ?_⟩
      rcases mem_cons.mp member with rfl | member
      · omega
      · exact room b member startB
    case isFalse late =>
      have low := above r mem_cons_self (by omega)
      rw [sub64_eq low (by unfold UserPages userStackTop at userR; omega)] at found
      split at found
      case isTrue fits =>
        rw [pageAlign_of_mod aligned user] at found
        subst found
        refine ⟨aligned, le_rfl, by have := userR.2.2; omega, fun b member _ => .inr ?_⟩
        rcases mem_cons.mp member with rfl | member
        · omega
        · have := later b member
          omega
      case isFalse =>
        rw [pageAlign_of_mod userR.2.1 userR.2.2] at found
        obtain ⟨whole, low', high, room⟩ := ih r.stop apart userR.2.1 userR.2.2
          (fun b member _ => later b member) found
        refine ⟨whole, by omega, high, fun b member startB => ?_⟩
        rcases mem_cons.mp member with rfl | member
        · exact .inl low'
        · exact room b member startB

/-- What `do_mmap` needs once it has its flags. -/
def SafeMmapFlags (vs : List Vma) (q : MmapArgs) (mem : List Bool) (flags : Nat) : Prop :=
  (flags &&& mapFixed ≠ 0 → q.start ≠ 0 → q.start % pageSize = 0 →
      Clearable vs q.start (pageAlign q.length) mem.tail) ∧
    (flags &&& mapFixed = 0 → ∀ r ∈ vs, r.start < mmapStart → r.stop ≤ mmapStart) ∧
    ((q.file.bind File.refuses).isSome → pageAlign q.length < 2 ^ 31)

/-- A mapping that replaces others can clear its range; one that does not finds no region across
`MMAP_START`; a device that refuses is not asked for 2 GiB. -/
def SafeMmap (vs : List Vma) (q : MmapArgs) (mem : List Bool) : Prop :=
  q.length ≤ userStackTop → pageAlign q.length ≠ 0 →
    q.start + pageAlign q.length ≤ userStackTop → mem.head? = some true →
      ∀ flags ∈ (mmapFlags q).toOption, SafeMmapFlags vs q mem flags

theorem mmapAt_space (flags : Nat) (space : Space vs)
    (clearable : Clearable vs start (pageAlign q.length) mem.tail)
    (aligned : start % pageSize = 0) (positive : 0 < start) (some : 0 < pageAlign q.length)
    (user : start + pageAlign q.length ≤ userStackTop)
    (refused : (q.file.bind File.refuses).isSome → pageAlign q.length < 2 ^ 31) :
    Space (mmapAt vs q flags start mem).2 := by
  unfold mmapAt
  split
  case h_1 mem =>
    have stop : add64 start (pageAlign q.length) = start + pageAlign q.length :=
      add64_eq (by unfold userStackTop at user; omega)
    simp only [stop]
    split
    case h_1 e refuses =>
      -- the region was never linked: nothing lies behind its end
      have small := refused (by simp [refuses])
      have same : add64 start (ssize (pageAlign q.length)) = start + pageAlign q.length := by
        rw [ssize_eq small, stop]
      simp only [freeVmaRegion, same, Nat.lt_irrefl]
      let v : Vma := ⟨start, start + pageAlign q.length, 0, 0, 0, .mmap, none, 0, none⟩
      exact (mmap_space (v := v) space clearable aligned (pageAlign_mod _) positive some user rfl
        rfl).1
    case h_2 =>
      exact (mmap_space space clearable aligned (pageAlign_mod _) positive some user rfl rfl).2
  case h_2 => exact space

theorem mmapFlags_error {e : Errno} (refused : mmapFlags q = .error e) : e ≠ .enomem := by
  rintro rfl
  unfold mmapFlags at refused
  repeat' split at refused
  all_goals cases refused

/-- `do_mmap` returns before it looks at the list, finds no address, or goes on. -/
theorem doMmap_cases (vs : List Vma) (q : MmapArgs) (mem : List Bool) :
    (pageAlign q.length = 0 ∧ doMmap vs q mem = (.ok q.start, vs)) ∨
      (∃ e, doMmap vs q mem = (.error e, vs) ∧
        (e = .enomem → pageAlign q.length ≠ 0 ∧
          ∃ flags, mmapFlags q = .ok flags ∧ mmapAddress vs q flags = .error e)) ∨
      ∃ flags start, q.length ≤ userStackTop ∧ pageAlign q.length ≠ 0 ∧
        q.start + pageAlign q.length ≤ userStackTop ∧ mmapFlags q = .ok flags ∧
        mmapAddress vs q flags = .ok start ∧ doMmap vs q mem = mmapAt vs q flags start mem := by
  unfold doMmap
  split
  · exact .inr (.inl ⟨_, rfl, nofun⟩)
  case isFalse short =>
  split
  case isTrue empty => exact .inl ⟨empty, rfl⟩
  case isFalse some =>
  split
  · exact .inr (.inl ⟨_, rfl, nofun⟩)
  case isFalse bounds =>
  split
  case h_1 refused => exact .inr (.inl ⟨_, rfl, fun same => absurd same (mmapFlags_error refused)⟩)
  case h_2 flags accepted =>
  split
  case h_1 address => exact .inr (.inl ⟨_, rfl, fun _ => ⟨some, flags, accepted, address⟩⟩)
  case h_2 start address =>
    push Not at short bounds
    refine .inr (.inr ⟨flags, start, short, some, ?_, accepted, address, rfl⟩)
    have bound := bounds.2
    have := pageMask_le (add64 q.length (pageSize - 1))
    unfold pageAlign add64 pageSize userStackTop at *
    omega

/-- An address that `do_mmap` chooses itself, when no region lies across `MMAP_START`. -/
theorem mmapAddress_room {flags : Nat} (space : Space vs)
    (notFixed : flags &&& mapFixed = 0) (some : pageAlign q.length ≠ 0)
    (straddle : ∀ r ∈ vs, r.start < mmapStart → r.stop ≤ mmapStart)
    (address : mmapAddress vs q flags = .ok start) :
    start % pageSize = 0 ∧ 0 < start ∧ start + pageAlign q.length ≤ userStackTop ∧
      ∀ r ∈ vs, r.stop ≤ start ∨ start + pageAlign q.length ≤ r.start := by
  rw [mmapAddress, if_neg (by simpa using notFixed)] at address
  simp only at address
  split at address
  · cases address
  case isFalse nonzero =>
    cases address
    rw [getUnmappedVmaRegion, if_neg some] at nonzero ⊢
    obtain ⟨aligned, low, high, room⟩ := unmappedFrom_room mmapStart space
      (by decide) (by decide) (fun _ _ h => h) rfl nonzero
    refine ⟨aligned, by omega, high, fun r member => ?_⟩
    rcases Nat.lt_or_ge r.start mmapStart with early | late
    · have := straddle r member early
      omega
    · exact room r member late

theorem doMmap_space (space : Space vs) (safe : SafeMmap vs q mem) : Space (doMmap vs q mem).2 := by
  rcases doMmap_cases vs q mem with
    ⟨-, same⟩ | ⟨_, same, -⟩ | ⟨flags, start, short, some, user, accepted, address, same⟩
  · rwa [same]
  · rwa [same]
  rw [same]
  by_cases memory : mem.head? = Option.some true
  · obtain ⟨fixed, straddle, refused⟩ :=
      safe short some user memory flags (by simp [accepted, Except.toOption])
    have positive : 0 < pageAlign q.length := by omega
    by_cases isFixed : flags &&& mapFixed ≠ 0
    · rw [mmapAddress, if_pos isFixed] at address
      split at address
      · cases address
      case isFalse ok =>
        cases address
        push Not at ok
        exact mmapAt_space flags space (fixed isFixed ok.1 ok.2) ok.2 (by omega) positive user refused
    · have notFixed : flags &&& mapFixed = 0 := by simpa using isFixed
      obtain ⟨aligned, low, high, room⟩ :=
        mmapAddress_room space notFixed some (straddle notFixed) address
      exact mmapAt_space flags space (clearable_of_free room space) aligned low positive high refused
  · unfold mmapAt
    split
    · simp at memory
    · exact space

end Mmap

/-! ## Changing regions in place -/

section Others

variable {vs pre post : List Vma} {r : Vma} {addr length : Nat} {mem : List Bool} {new : Nat}
  {prot : Int} {vs' : List Vma}

theorem mprotectChecks_ok (checked : mprotectChecks vs addr length prot = .ok (pre, r, post)) :
    vs = pre ++ r :: post ∧ r.start ≤ addr ∧ addr < r.stop ∧ addr % pageSize = 0 ∧
      add64 addr (unmapLength length) ≤ r.stop := by
  unfold mprotectChecks at checked
  split at checked
  · cases checked
  case isFalse aligned =>
  have aligned : addr % pageSize = 0 := by simpa using aligned
  split at checked
  · cases checked
  simp only at checked
  split at checked
  · cases checked
  split at checked
  · cases checked
  case h_2 found =>
    obtain ⟨rfl, low, inside⟩ := findVmaRegion_some aligned found
    split at checked
    · cases checked
    case isFalse bound =>
      split at checked
      · cases checked
      · cases checked
        exact ⟨rfl, low, inside, aligned, Nat.le_of_not_gt bound⟩

/-- An empty `mprotect` at the start of a region cuts off an empty region, unless the two can be
merged again. -/
def SafeMprotect (vs : List Vma) (addr length : Nat) (prot : Int) (mem : List Bool) : Prop :=
  ∀ found ∈ (mprotectChecks vs addr length prot).toOption,
    unmapLength length = 0 → found.2.1.start = addr → mem.head? = some true →
      found.2.1.prot = (prot % 2 ^ 8).toNat ∧ found.2.1.sType ≠ .shm

/-- The two parts of a region that was cut at its start merge again. -/
theorem insertVmaRegion_rejoin (space : Space (pre ++ r :: post)) (notShm : r.sType ≠ .shm) :
    insertVmaRegion (pre ++ { r with stop := r.start } :: post) r mem =
      (pre ++ r :: post, mem) := by
  obtain ⟨-, nonempty, -, after⟩ := Spans.middle_iff.mp space.spans
  have merges : canBeMerged { r with stop := r.start } r := by
    have user := (space.user r (by simp)).2.2
    have zero : sub64 r.start r.start = 0 := by
      rw [sub64_eq le_rfl (by unfold userStackTop at user; omega), Nat.sub_self]
    have offset : add64 r.offset.toNat 0 = r.offset.toNat := by
      have := r.offset.toNat_lt
      exact add64_eq (by omega)
    simp [canBeMerged, zero, offset, notShm]
  have early := space.early (x := { r with stop := r.start }) rfl le_rfl
  have late : ∀ b ∈ post, r.start < b.start := fun b h => nonempty.trans_le (after b h)
  rw [← singleton_append, ← append_assoc, insertVmaRegion_touch early rfl late, if_pos merges]

theorem sysMprotect_space (space : Space vs) (safe : SafeMprotect vs addr length prot mem) :
    Space (sysMprotect vs addr length prot mem).2 := by
  unfold sysMprotect
  split
  · exact space
  case h_2 pre r post checked =>
    obtain ⟨rfl, low, inside, aligned, high⟩ := mprotectChecks_ok checked
    have safe := safe (pre, r, post) (by simp [checked, Except.toOption])
    have user := space.user r (by simp)
    have fits := pageAlign32_lt (length % 2 ^ 32)
    have whole : unmapLength length % pageSize = 0 := pageMask_mod _
    have stop : add64 addr (unmapLength length) = addr + unmapLength length := by
      refine add64_eq ?_
      unfold unmapLength UserPages userStackTop at *
      omega
    rw [stop] at high
    show Space (doMprotect pre r post addr (unmapLength length) _ mem).2
    generalize unmapLength length = length at *
    unfold doMprotect
    simp only [stop]
    split
    · obtain ⟨rest, fields⟩ := middle_iff.mp space
      exact middle_iff.mpr ⟨rest, fields⟩
    case isFalse part =>
    split
    case h_2 => exact space
    case h_1 rest =>
    split
    case isTrue atStart =>
      rcases Nat.eq_zero_or_pos length with zero | positive
      · obtain ⟨sameProt, notShm⟩ := safe zero atStart rfl
        subst zero atStart
        have new : { r with start := r.start + 0, offset := r.offset + .ofNat 0 } = r := by simp
        rw [new, ← sameProt, Nat.add_zero, insertVmaRegion_rejoin space notShm]
        exact space
      · have aligned : (addr + length) % pageSize = 0 := by
          unfold pageSize at *
          omega
        have parts := space.split (b := { r with stop := addr + length, prot := (prot % 2 ^ 8).toNat })
          (c := { r with start := addr + length, offset := r.offset + .ofNat length }) rfl rfl rfl
          (by show r.start < addr + length; omega) (by show addr + length < r.stop; omega) aligned
        rw [append_cons] at parts ⊢
        exact insertVmaRegion_space _ parts
    case isFalse inner =>
      exact insertVmaRegion_space _ (space.split rfl rfl rfl
        (by show r.start < addr; omega) inside aligned)

def neighbours : List Vma → List (Vma × Vma)
  | a :: b :: rest => (a, b) :: neighbours (b :: rest)
  | _ => []

/-- Where `expand_heap` finds a heap region to extend, one begins below the new break. -/
def HeapBelow (vs : List Vma) (new : Nat) : Prop :=
  (∃ p ∈ neighbours vs, p.1.sType = .heap ∧ new < p.2.start) →
    ∃ p ∈ neighbours vs, p.1.sType = .heap ∧ p.1.start < new ∧ new < p.2.start

theorem mem_of_neighbours {p : Vma × Vma} (member : p ∈ neighbours vs) : p.1 ∈ vs := by
  induction vs with
  | nil => cases member
  | cons r vs ih =>
    cases vs with
    | nil => cases member
    | cons next rest =>
      rw [neighbours, mem_cons] at member
      rcases member with rfl | member
      · simp
      · exact mem_cons_of_mem r (ih member)

theorem expandHeap_pair (expanded : expandHeap new vs = some vs') :
    ∃ p ∈ neighbours vs, p.1.sType = .heap ∧ new < p.2.start := by
  induction vs generalizing vs' with
  | nil => cases expanded
  | cons r vs ih =>
    cases vs with
    | nil => cases expanded
    | cons next rest =>
      rw [expandHeap] at expanded
      split at expanded
      case isTrue here => exact ⟨(r, next), by simp [neighbours], here⟩
      case isFalse =>
        obtain ⟨tail, found, -⟩ := Option.map_eq_some_iff.mp expanded
        obtain ⟨p, member, found⟩ := ih found
        exact ⟨p, by simp [neighbours, member], found⟩

/-- `expand_heap` moves one end, to where the heap region can take it. -/
theorem expandHeap_space (space : Space vs)
    (aligned : new % pageSize = 0) (expanded : expandHeap new vs = some vs')
    (good : ∃ p ∈ neighbours vs, p.1.sType = .heap ∧ p.1.start < new ∧ new < p.2.start) :
    Space vs' ∧ vs'.map start = vs.map start := by
  induction vs generalizing vs' with
  | nil => cases expanded
  | cons r vs ih =>
    cases vs with
    | nil => cases expanded
    | cons next rest =>
      obtain ⟨tail, nonempty, user, later⟩ := cons_iff.mp space
      obtain ⟨-, nonemptyNext, userNext, laterNext⟩ := cons_iff.mp tail
      obtain ⟨p, member, heap, low, high⟩ := good
      rw [neighbours, mem_cons] at member
      rw [expandHeap] at expanded
      split at expanded
      case isTrue here =>
        cases expanded
        -- the pair that fits is this one: a later one begins above the break
        have below : r.start < new := by
          rcases member with rfl | member
          · exact low
          have inTail := mem_of_neighbours member
          rcases mem_cons.mp inTail with same | inRest
          · rw [same] at low
            omega
          · have := laterNext p.1 inRest
            omega
        have bound := userNext.2.2
        refine ⟨cons_iff.mpr ⟨tail, below, ⟨user.1, aligned, ?_⟩, fun b inTail => ?_⟩, rfl⟩
        · show new ≤ userStackTop
          omega
        · show new ≤ b.start
          rcases mem_cons.mp inTail with rfl | inRest
          · omega
          · have := laterNext b inRest
            omega
      case isFalse notHere =>
        obtain ⟨tail', found, rfl⟩ := Option.map_eq_some_iff.mp expanded
        have inTail : p ∈ neighbours (next :: rest) := by
          rcases member with rfl | member
          · exact absurd ⟨heap, high⟩ notHere
          · exact member
        obtain ⟨spaceTail, starts⟩ := ih tail found ⟨p, inTail, heap, low, high⟩
        refine ⟨cons_iff.mpr ⟨spaceTail, nonempty, user, ?_⟩, by simp [starts]⟩
        intro b inNew
        obtain ⟨c, inOld, same⟩ : ∃ c ∈ next :: rest, c.start = b.start := by
          have := mem_map_of_mem (f := start) inNew
          rwa [starts, mem_map] at this
        exact same ▸ later c inOld

/-- What `sys_brk` does with the list is safe: unmap, or extend a heap region below the break. -/
def SafeBrk (p : Proc) (brk : Nat) : Prop :=
  brk ≠ 0 → pageAlign brk ≠ p.brk → p.brkLower ≤ brk → p.brkLower ≤ pageAlign brk →
  if brk < p.brk then SafeMunmap p.vmas (pageAlign brk) (sub64 p.brk (pageAlign brk))
  else HeapBelow p.vmas (pageAlign brk)

theorem sysBrk_space {p : Proc} {brk : Nat} (space : Space p.vmas) (safe : SafeBrk p brk) :
    Space (sysBrk p brk mem).2.vmas := by
  unfold sysBrk
  split
  · exact space
  case isFalse asked =>
  simp only
  split
  · exact space
  case isFalse moved =>
  push Not at asked moved
  have safe := safe asked.1 moved.1 asked.2 moved.2
  split
  case isTrue lower =>
    rw [if_pos lower] at safe
    exact doMunmap_space space safe
  case isFalse raise =>
    rw [if_neg raise] at safe
    split
    case h_1 vmas expanded =>
      exact (expandHeap_space space (pageAlign_mod _) expanded (safe (expandHeap_pair expanded))).1
    case h_2 => exact space

/-- A stack that grows meets no other region. -/
def SafeFault (vs : List Vma) (cr2 rsp : Nat) : Prop :=
  findVmaRegion vs cr2 = none → sub64 rsp 32 ≤ cr2 → cr2 < userStackTop →
    ∀ stack ∈ vs, stack.start ≤ pageMask (userStackTop - 1) → pageMask (userStackTop - 1) < stack.stop →
      ∀ r ∈ vs, r.stop ≤ pageMask cr2 ∨ stack.start ≤ r.start

theorem pageFault_space {cr2 rsp : Nat} (space : Space vs) (safe : SafeFault vs cr2 rsp) :
    Space (pageFault vs cr2 rsp) := by
  unfold pageFault
  split
  · exact space
  case h_2 outside =>
  unfold growStack
  split
  case isFalse => exact space
  case isTrue stackLike =>
  split
  case h_2 => exact space
  case h_1 pre stack post found =>
    obtain ⟨rfl, low, high⟩ := splitAtRegion_some found
    obtain ⟨rest, nonempty, user, before, after⟩ := middle_iff.mp space
    have clear := safe outside stackLike.1 stackLike.2 stack (by simp) low high
    have page : pageMask cr2 ≤ pageMask (userStackTop - 1) :=
      Nat.mul_le_mul_right _ (Nat.div_le_div_right (by omega))
    refine middle_iff.mpr ⟨rest, ?_, ⟨pageMask_mod _, user.2⟩, ?_, after⟩
    · show pageMask cr2 < stack.stop
      omega
    · intro b member
      show b.stop ≤ pageMask cr2
      have := clear b (by simp [member])
      have := before b member
      have := space.spans.nonempty b (by simp [member])
      omega

end Others

/-! ## Every run -/

/-- The calls that keep the list in order. -/
def SafeLabel (p : Proc) : Label → Prop
  | .mmap args mem => SafeMmap p.vmas args mem
  | .munmap addr length _ => SafeMunmap p.vmas addr length
  | .mprotect addr length prot mem => SafeMprotect p.vmas addr length prot mem
  | .brk addr _ => SafeBrk p addr
  | .fault cr2 rsp => SafeFault p.vmas cr2 rsp

theorem step_space (p : Proc) (a : Label) (p' : Proc) (space : Space p.vmas) (safe : SafeLabel p a)
    (taken : step p a = some p') : Space p'.vmas := by
  cases taken
  cases a with
  | mmap args mem => exact doMmap_space space safe
  | munmap addr length mem => exact doMunmap_space space safe
  | mprotect addr length prot mem => exact sysMprotect_space space safe
  | brk addr mem => exact sysBrk_space space safe
  | fault cr2 rsp => exact pageFault_space space safe

/-- **Every run of safe calls leaves the regions sorted, non-empty and apart.** -/
theorem region_list_invariant (p : Proc) (labels : List Label) (p' : Proc)
    (wellFormed : WellFormed p.vmas) (user : ∀ r ∈ p.vmas, UserPages r)
    (safe : Guarded step SafeLabel p labels) (ran : run step p labels = some p') :
    WellFormed p'.vmas := by
  have space : Space p.vmas := ⟨wellFormed_iff.mp wellFormed, user⟩
  exact wellFormed_iff.mpr (run_inv step_space space safe ran).spans

/-! ## Poles -/

instance (vs : List Vma) : Decidable (WellFormed vs) :=
  decidable_of_iff (vs.Pairwise (fun a b => a.start ≤ b.start) ∧ (∀ r ∈ vs, r.start < r.stop) ∧
      vs.Pairwise fun a b => a.stop ≤ b.start ∨ b.stop ≤ a.start)
    ⟨fun h => ⟨h.1, h.2.1, h.2.2⟩, fun h => ⟨h.sorted, h.nonempty, h.disjoint⟩⟩

instance (vs : List Vma) (addr length : Nat) : Decidable (SmallPieces vs addr length) := by
  unfold SmallPieces
  infer_instance

instance (vs : List Vma) (start length : Nat) (mem : List Bool) :
    Decidable (Clearable vs start length mem) :=
  decidable_of_iff' _ (clearable_iff vs start length mem)

instance (vs : List Vma) (q : MmapArgs) (mem : List Bool) (flags : Nat) :
    Decidable (SafeMmapFlags vs q mem flags) := by
  unfold SafeMmapFlags
  infer_instance

instance (vs : List Vma) (cr2 rsp : Nat) : Decidable (SafeFault vs cr2 rsp) :=
  forall_prop_decidable _

instance (p : Proc) (a : Label) : Decidable (SafeLabel p a) := by
  cases a <;>
    dsimp only [SafeLabel, SafeMmap, SafeMunmap, SafeMprotect, SafeBrk, HeapBelow] <;>
    infer_instance

/-- A small program: text, heap and stack. -/
def program : Proc :=
  { vmas :=
      [⟨0x400000, 0x402000, 5, 0x12, 0, .text, some 7, 0, none⟩,
        ⟨0x500000, 0x501000, 3, 0x80000012, 0, .heap, none, 0, none⟩,
        ⟨userStackTop - 0x2000, userStackTop, 3, 0x80000012, 0, .stack, none, 0, none⟩]
    brk := 0x501000
    brkLower := 0x500000 }

def anonymous (start length flags : Nat) : MmapArgs :=
  ⟨none, start, length, 3, flags, 0, .mmap, 0, none⟩

/-- The heap grows, three pages are mapped, the middle one is protected and replaced, the stack grows,
the break goes back. -/
def programRun : List Label :=
  [.brk 0x503800 [], .mmap (anonymous 0 0x3000 0x22) [true],
    .mprotect (mmapStart + 0x1000) 0x1000 1 [true], .mprotect mmapStart 0 3 [true],
    .mmap (anonymous (mmapStart + 0x1000) 0x1000 0x32) [true, false, true],
    .munmap mmapStart 0x2000 [], .fault (userStackTop - 0x3008) (userStackTop - 0x3000),
    .brk 0x501400 [true]]

theorem region_list_invariant_programRun :
    ∃ p, run step program programRun = some p ∧ WellFormed p.vmas := by
  refine exists_run (by decide +kernel) fun p ran => ?_
  exact region_list_invariant program programRun p (by decide +kernel) (by decide +kernel)
    (Guarded.of_decide (by decide +kernel)) ran

/-- **Regions that overlap or are empty**, each after one or a few calls of a program whose list was
in order: a fixed mapping over a hole and the text behind it; a stack fault below the heap; an
empty `mprotect`; a break that moves below what `munmap` left of the heap. -/
theorem regions_overlap :
    WellFormed program.vmas ∧
      ¬WellFormed (stepTo program (.mmap (anonymous 0x3ff000 0x3000 0x32) [true])).vmas ∧
      ¬WellFormed (stepTo program (.fault 0x480000 0x480000)).vmas ∧
      ¬WellFormed (stepTo program (.mprotect 0x400000 0 0 [true])).vmas ∧
      ∃ p, run step program [.brk 0x504000 [], .munmap 0x500000 0x3000 [true], .brk 0x501000 [],
        .brk 0x502000 []] = some p ∧ ¬WellFormed p.vmas := by
  refine ⟨by decide +kernel, by decide +kernel, by decide +kernel, by decide +kernel, ?_⟩
  exact ⟨_, rfl, by decide +kernel⟩

end Argentum.Mm
