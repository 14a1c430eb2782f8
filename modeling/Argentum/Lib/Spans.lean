/-
# Lib.Spans — sorted lists of disjoint, non-empty spans

An element of the list stands for the half-open span from `lo` to `hi`. `Spans` says that none
is empty and each ends before the next begins; `cover` is the set of points they hold. The rules
are those for putting a span into a gap, taking spans out and changing one in place.
-/
import Mathlib.Data.List.Pairwise
import Mathlib.Data.Set.Lattice

namespace Argentum.Lib

open List

variable {α β : Type} [LinearOrder β] {lo hi : α → β}

variable (lo hi) in
structure Spans (l : List α) : Prop where
  nonempty : ∀ a ∈ l, lo a < hi a
  apart : l.Pairwise fun a b => hi a ≤ lo b

variable (lo hi) in
/-- The points that the spans hold. -/
def cover (l : List α) : Set β := {x | ∃ a ∈ l, lo a ≤ x ∧ x < hi a}

section Cover

variable {l pre post : List α} {a : α} {x : β}

@[simp] theorem mem_cover : x ∈ cover lo hi l ↔ ∃ a ∈ l, lo a ≤ x ∧ x < hi a := Iff.rfl

theorem mem_cover_append :
    x ∈ cover lo hi (pre ++ post) ↔ x ∈ cover lo hi pre ∨ x ∈ cover lo hi post := by
  simp [mem_cover, mem_append, or_and_right, exists_or]

theorem mem_cover_cons : x ∈ cover lo hi (a :: l) ↔ (lo a ≤ x ∧ x < hi a) ∨ x ∈ cover lo hi l := by
  simp [mem_cover, mem_cons, exists_eq_or_imp]

end Cover

namespace Spans

variable {l pre post : List α} {a b : α}

theorem sublist (spans : Spans lo hi l) (sub : pre.Sublist l) : Spans lo hi pre :=
  ⟨fun a member => spans.nonempty a (sub.subset member), spans.apart.sublist sub⟩

theorem middle_iff :
    Spans lo hi (pre ++ a :: post) ↔
      Spans lo hi (pre ++ post) ∧ lo a < hi a ∧ (∀ b ∈ pre, hi b ≤ lo a) ∧
        ∀ b ∈ post, hi a ≤ lo b := by
  constructor
  · intro spans
    have apart := spans.apart
    rw [pairwise_append] at apart
    have sub := List.Sublist.append_left (sublist_cons_self a post) pre
    exact ⟨spans.sublist sub, spans.nonempty a (by simp),
      fun b member => apart.2.2 b member a (by simp),
      (pairwise_cons.mp apart.2.1).1⟩
  · rintro ⟨spans, nonempty, before, after⟩
    have apart := spans.apart
    rw [pairwise_append] at apart
    constructor
    · intro b member
      rw [mem_append, mem_cons] at member
      rcases member with inPre | rfl | inPost
      · exact spans.nonempty b (mem_append_left _ inPre)
      · exact nonempty
      · exact spans.nonempty b (mem_append_right _ inPost)
    · rw [pairwise_append, pairwise_cons]
      refine ⟨apart.1, ⟨after, apart.2.1⟩, fun b inPre c member => ?_⟩
      rcases mem_cons.mp member with rfl | inPost
      · exact before b inPre
      · exact apart.2.2 b inPre c inPost

/-- An element gives way to spans inside it. -/
theorem replace {mid : List α} (spans : Spans lo hi (pre ++ a :: post)) (new : Spans lo hi mid)
    (inside : ∀ b ∈ mid, lo a ≤ lo b ∧ hi b ≤ hi a) : Spans lo hi (pre ++ mid ++ post) := by
  obtain ⟨rest, -, before, after⟩ := middle_iff.mp spans
  have apart := rest.apart
  rw [pairwise_append] at apart
  constructor
  · intro b member
    simp only [mem_append] at member
    rcases member with (inPre | inMid) | inPost
    · exact rest.nonempty b (mem_append_left _ inPre)
    · exact new.nonempty b inMid
    · exact rest.nonempty b (mem_append_right _ inPost)
  · rw [pairwise_append, pairwise_append]
    refine ⟨⟨apart.1, new.apart, ?_⟩, apart.2.1, ?_⟩
    · exact fun b inPre c inMid => (before b inPre).trans (inside c inMid).1
    intro b member c inPost
    rcases mem_append.mp member with inPre | inMid
    · exact apart.2.2 b inPre c inPost
    · exact (inside b inMid).2.trans (after c inPost)

theorem join (spans : Spans lo hi (pre ++ a :: b :: post)) {c : α} (low : lo c = lo a)
    (high : hi c = hi b) : Spans lo hi (pre ++ c :: post) := by
  obtain ⟨tail, nonempty, before, after⟩ := middle_iff.mp spans
  obtain ⟨rest, nonempty', -, after'⟩ := middle_iff.mp tail
  refine middle_iff.mpr ⟨rest, ?_, fun d member => low ▸ before d member,
    fun d member => high ▸ after' d member⟩
  rw [low, high]
  exact nonempty.trans_le ((after b (by simp)).trans nonempty'.le)

/-- No point is in two spans. -/
theorem unique (spans : Spans lo hi l) (inA : a ∈ l) (inB : b ∈ l) {x : β}
    (holdsA : lo a ≤ x ∧ x < hi a) (holdsB : lo b ≤ x ∧ x < hi b) : a = b := by
  by_contra ne
  have symm : Std.Symm fun a b => hi a ≤ lo b ∨ hi b ≤ lo a := ⟨fun _ _ => Or.symm⟩
  have either : l.Pairwise fun a b => hi a ≤ lo b ∨ hi b ≤ lo a := spans.apart.imp .inl
  have apart := either.forall inA inB ne
  rcases apart with apart | apart
  · exact absurd (holdsA.2.trans_le (apart.trans holdsB.1)) (lt_irrefl _)
  · exact absurd (holdsB.2.trans_le (apart.trans holdsA.1)) (lt_irrefl _)

/-- The elements that begin at `x` or before end before those that begin later. -/
theorem lo_dropWhile (spans : Spans lo hi l) (x : β) :
    ∀ b ∈ l.dropWhile fun a => decide (lo a ≤ x), x < lo b := by
  induction l with
  | nil => simp
  | cons a l ih =>
    have tail := spans.sublist (sublist_cons_self a l)
    by_cases early : lo a ≤ x
    · simpa [early] using ih tail
    rw [dropWhile_cons_of_neg (by simpa using early)]
    intro b member
    rcases mem_cons.mp member with rfl | later
    · exact lt_of_not_ge early
    · have apart := (pairwise_cons.mp spans.apart).1 b later
      exact (lt_of_not_ge early).trans ((spans.nonempty a (by simp)).trans_le apart)

end Spans

end Argentum.Lib
