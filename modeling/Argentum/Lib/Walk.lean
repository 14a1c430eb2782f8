/-
# Lib.Walk — following one pointer to its end

`Walk next a l`: from `a` on, `next` leads through the nodes of `l` and then to nothing. A walk
that ends is the only one from its start (`Walk.unique`), so it meets no node twice
(`Walk.nodup`), and it depends on the pointers of its own nodes only (`Walk.congr`).
-/
import Mathlib.Data.List.Nodup

namespace Argentum.Lib

open List

variable {α : Type} {next next' : α → Option α} {a b : α} {l m : List α}

inductive Walk (next : α → Option α) : α → List α → Prop
  | last {a : α} (ends : next a = none) : Walk next a [a]
  | step {a b : α} {l : List α} (goes : next a = some b) (rest : Walk next b l) :
      Walk next a (a :: l)

namespace Walk

variable (walk : Walk next a l)

include walk

theorem unique (other : Walk next a m) : l = m := by
  induction walk generalizing m with
  | last ends =>
    cases other with
    | last => rfl
    | step goes => rw [ends] at goes; cases goes
  | step goes _ ih =>
    cases other with
    | last ends => rw [ends] at goes; cases goes
    | step again rest =>
      rw [goes, Option.some.injEq] at again
      subst again
      rw [ih rest]

/-- From any of its nodes on, the rest of a walk is the walk. -/
theorem from_mem (member : b ∈ l) : ∃ pre post, l = pre ++ post ∧ Walk next b post := by
  induction walk with
  | last ends =>
    rw [mem_singleton] at member
    subst member
    exact ⟨[], _, rfl, Walk.last ends⟩
  | step goes rest ih =>
    rcases mem_cons.mp member with rfl | member
    · exact ⟨[], _, rfl, Walk.step goes rest⟩
    · obtain ⟨pre, post, split, walk⟩ := ih member
      exact ⟨_ :: pre, post, by rw [split, cons_append], walk⟩

theorem nodup : l.Nodup := by
  induction walk with
  | last => exact nodup_singleton _
  | @step a b l goes rest ih =>
    refine nodup_cons.mpr ⟨fun member => ?_, ih⟩
    -- the walk from `a` would be a part of itself
    obtain ⟨pre, post, split, again⟩ := rest.from_mem member
    have same := congrArg List.length (again.unique (Walk.step goes rest))
    rw [split, length_cons, length_append] at same
    omega

theorem congr (same : ∀ b ∈ l, next' b = next b) : Walk next' a l := by
  induction walk with
  | last ends => exact Walk.last (by rw [same _ (mem_singleton_self _), ends])
  | step goes _ ih =>
    refine Walk.step (by rw [same _ mem_cons_self, goes]) (ih fun b member => ?_)
    exact same b (mem_cons_of_mem _ member)

end Walk

end Argentum.Lib
