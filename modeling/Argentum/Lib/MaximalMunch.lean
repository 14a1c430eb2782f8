/-
# Lib.MaximalMunch — splitting a text by the longest match

A text is split into pieces from left to right. A piece grows as long as the next symbol joins
it; blanks end it. What the pieces of a text are depends on a neighbouring text only through the
piece still open at the border: two texts whose border keeps them apart are split independently
(`munch_split`), and in general what follows is split as a continuation of the open piece
(`mem_munch_append`).
-/
import Mathlib.Data.List.Basic

namespace Argentum.Lib.MaximalMunch

open List

variable {α : Type} {blank : α → Bool} {joins : List α → α → Bool} {piece rest : List α}
  {a b : List α} {c : α}

/-- A piece that has ended; the empty one is no piece. -/
def close : List α → List (List α)
  | [] => []
  | c :: cs => [c :: cs]

variable (blank joins) in
/-- The pieces of a text, after the symbols of `piece`. -/
def munch : List α → List α → List (List α)
  | piece, [] => close piece
  | piece, c :: rest =>
    if blank c then close piece ++ munch [] rest
    else if joins piece c then munch (piece ++ [c]) rest
    else close piece ++ munch [c] rest

variable (blank joins) in
/-- The piece that is open at the end of a text. -/
def pending : List α → List α → List α
  | piece, [] => piece
  | piece, c :: rest =>
    if blank c then pending [] rest
    else if joins piece c then pending (piece ++ [c]) rest
    else pending [c] rest

variable (blank joins) in
/-- The text does not continue the piece. -/
def Apart (piece rest : List α) : Prop :=
  ∀ c ∈ rest.head?, blank c = true ∨ joins piece c = false

theorem munch_apart (apart : Apart blank joins piece rest) :
    munch blank joins piece rest = close piece ++ munch blank joins [] rest := by
  cases rest with
  | nil => simp [munch, close]
  | cons c rest =>
    rw [munch, munch]
    by_cases isBlank : blank c = true
    · simp [isBlank, close]
    · have parted := (apart c rfl).resolve_left isBlank
      by_cases begins : joins [] c = true <;> simp [isBlank, parted, begins, close]

theorem munch_split (apart : Apart blank joins (pending blank joins piece a) b) :
    munch blank joins piece (a ++ b) = munch blank joins piece a ++ munch blank joins [] b := by
  induction a generalizing piece with
  | nil => exact munch_apart apart
  | cons c a ih =>
    rw [cons_append, munch, munch]
    rw [pending] at apart
    split_ifs at apart ⊢ with isBlank grows
    · rw [ih apart, append_assoc]
    · exact ih apart
    · rw [ih apart, append_assoc]

theorem pending_append (piece a b : List α) :
    pending blank joins piece (a ++ b) = pending blank joins (pending blank joins piece a) b := by
  induction a generalizing piece with
  | nil => rfl
  | cons c a ih =>
    rw [cons_append, pending, pending]
    split_ifs <;> apply ih

theorem mem_munch_append {t : List α}
    (found : t ∈ munch blank joins (pending blank joins piece a) b) :
    t ∈ munch blank joins piece (a ++ b) := by
  induction a generalizing piece with
  | nil => exact found
  | cons c a ih =>
    rw [cons_append, munch]
    rw [pending] at found
    split_ifs at found ⊢ with isBlank grows
    · exact mem_append_right _ (ih found)
    · exact ih found
    · exact mem_append_right _ (ih found)

/-- A piece that nothing joins is a piece of its own. -/
theorem mem_munch_of_full (whole : piece ≠ [])
    (full : ∀ c, joins piece c = false) : piece ∈ munch blank joins piece rest := by
  rw [munch_apart fun c _ => .inr (full c)]
  obtain ⟨c, cs, rfl⟩ := exists_cons_of_ne_nil whole
  simp [close]

theorem munch_first (solid : blank c = false) :
    munch blank joins [] (c :: rest) = munch blank joins [c] rest := by
  rw [munch, if_neg (by simp [solid])]
  split_ifs <;> rfl

theorem pending_first (solid : blank c = false) :
    pending blank joins [] (c :: rest) = pending blank joins [c] rest := by
  rw [pending, if_neg (by simp [solid])]
  split_ifs <;> rfl

/-- A text whose symbols all join is one piece with what came before. -/
theorem munch_run {run : List α} (solid : ∀ c ∈ run, blank c = false)
    (grows : ∀ p c, c ∈ run → piece <+: p → joins p c = true) :
    munch blank joins piece run = close (piece ++ run) ∧
      pending blank joins piece run = piece ++ run := by
  induction run generalizing piece with
  | nil => simp [munch, pending]
  | cons c run ih =>
    have first := grows piece c mem_cons_self (prefix_refl _)
    have later : ∀ p x, x ∈ run → piece ++ [c] <+: p → joins p x = true :=
      fun p x inside longer => grows p x (mem_cons_of_mem _ inside)
        ((prefix_append _ _).trans longer)
    obtain ⟨munched, left⟩ := ih (forall_mem_of_forall_mem_cons solid) later
    simp only [munch, pending, solid c mem_cons_self, first, munched, left]
    simp

end Argentum.Lib.MaximalMunch
