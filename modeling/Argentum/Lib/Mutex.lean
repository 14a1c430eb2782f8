/-
# Lib.Mutex — a lock bit and the program points inside it

Contexts `C` stand at program points `W`; `holds` marks the points at which a lock is
held, and the lock itself is one bit. `Exclusive` ties the two together: the bit is
set exactly when some context is inside, and at most one is. A context that moves
keeps that relation if it stays on its side of the lock, takes the lock when the bit
is clear, or leaves and clears it.
-/
import Mathlib.Data.List.Basic

namespace Argentum.Lib.Mutex

open Function

variable {C W : Type}

inductive Exclusive (holds : W → Bool) : Bool → (C → W) → Prop where
  | free {pc : C → W} (out : ∀ c, holds (pc c) = false) : Exclusive holds false pc
  | held {pc : C → W} (o : C) (here : holds (pc o) = true)
      (out : ∀ c, c ≠ o → holds (pc c) = false) : Exclusive holds true pc

namespace Exclusive

variable {holds : W → Bool} {bit : Bool} {pc : C → W} {c d : C} {w : W}

theorem locked (lock : Exclusive holds bit pc) (inside : holds (pc c) = true) : bit = true := by
  cases lock with
  | free out =>
    rw [out c] at inside
    cases inside
  | held o here out => rfl

theorem holder (lock : Exclusive holds true pc) : ∃ o, holds (pc o) = true := by
  cases lock with
  | held o here out => exact ⟨o, here⟩

theorem unique (lock : Exclusive holds bit pc) (inside : holds (pc c) = true)
    (inside' : holds (pc d) = true) : c = d := by
  cases lock with
  | free out =>
    rw [out c] at inside
    cases inside
  | held o here out =>
    have only : ∀ e, holds (pc e) = true → e = o := by
      intro e within
      by_contra other
      rw [out e other] at within
      cases within
    rw [only c inside, only d inside']

variable [DecidableEq C]

/-- A move on one side of the lock. -/
theorem stay (lock : Exclusive holds bit pc) (same : holds w = holds (pc c)) :
    Exclusive holds bit (update pc c w) := by
  have kept : ∀ e, holds (update pc c w e) = holds (pc e) := by
    intro e
    by_cases here : e = c
    · rw [here, update_self, same]
    · rw [update_of_ne here]
  cases lock with
  | free out => exact .free fun e => (kept e).trans (out e)
  | held o here out =>
    exact .held o ((kept o).trans here) fun e other => (kept e).trans (out e other)

theorem enter (lock : Exclusive holds false pc) (inside : holds w = true) :
    Exclusive holds true (update pc c w) := by
  cases lock with
  | free out =>
    refine .held c (by rw [update_self, inside]) fun e other => ?_
    rw [update_of_ne other]
    exact out e

theorem leave (lock : Exclusive holds bit pc) (inside : holds (pc c) = true)
    (outside : holds w = false) : Exclusive holds false (update pc c w) := by
  refine .free fun e => ?_
  by_cases here : e = c
  · rw [here, update_self, outside]
  · rw [update_of_ne here]
    by_contra within
    exact here (lock.unique (by simpa using within) inside)

end Exclusive

end Argentum.Lib.Mutex
