/-
# Lib.RootedTree — rooted trees as relations

`IsTree V E r` says that the vertices `V` hang from `r` by the edges `E`: no edge leads to
the root, at most one to every other vertex, and all vertices are reached. There is then no
cycle (`acyclic`). A tree stays one when a leaf is added (`grow`) or taken away (`prune`);
these and `congr` are the rules for a graph that changes step by step.
-/
import Mathlib.Logic.Relation

namespace Argentum.Lib

open Relation

structure IsTree {α : Type} (V : α → Prop) (E : α → α → Prop) (r : α) : Prop where
  root : V r
  ends : ∀ a b, E a b → V a ∧ V b
  top : ∀ a, ¬ E a r
  single : ∀ a b c, E a c → E b c → a = b
  reach : ∀ a, V a → ReflTransGen E r a

namespace IsTree

variable {α : Type} {V V' : α → Prop} {E E' : α → α → Prop} {r : α}

variable (tree : IsTree V E r) {c : α}

include tree

theorem parent {a : α} (vertex : V a) (other : a ≠ r) : ∃ p, E p a := by
  rcases (tree.reach a vertex).cases_tail with same | ⟨p, -, edge⟩
  · exact absurd same other
  · exact ⟨p, edge⟩

/-- No vertex is its own ancestor: the last edge of a cycle through `a` is the one that `a` was
reached by, so its parent would be on a cycle as well. -/
theorem acyclic (a : α) : ¬ TransGen E a a := by
  intro cycle
  obtain ⟨_, first, -⟩ := TransGen.head'_iff.mp cycle
  have reached := tree.reach a (tree.ends _ _ first).1
  clear first
  induction reached with
  | refl =>
    obtain ⟨p, -, last⟩ := TransGen.tail'_iff.mp cycle
    exact tree.top p last
  | tail _ edge ih =>
    obtain ⟨p, path, last⟩ := TransGen.tail'_iff.mp cycle
    rw [tree.single _ _ _ last edge] at path
    exact ih (TransGen.head' edge path)

theorem congr (vertices : ∀ a, V' a ↔ V a) (edges : ∀ a b, E' a b ↔ E a b) : IsTree V' E' r := by
  obtain rfl := funext fun a => propext (vertices a)
  obtain rfl := funext fun a => funext fun b => propext (edges a b)
  exact tree

theorem grow {p : α} (parent : V p) (new : ¬ V c) (vertices : ∀ a, V' a ↔ V a ∨ a = c)
    (edges : ∀ a b, E' a b ↔ E a b ∨ a = p ∧ b = c) :
    IsTree V' E' r := by
  have kept : ∀ a b, E a b → E' a b := fun a b edge => (edges a b).mpr (.inl edge)
  have old : ∀ a, V a → ReflTransGen E' r a := fun a vertex =>
    ReflTransGen.mono kept _ _ (tree.reach a vertex)
  constructor
  · exact (vertices r).mpr (.inl tree.root)
  · intro a b edge
    rcases (edges a b).mp edge with edge | ⟨rfl, rfl⟩
    · exact ⟨(vertices a).mpr (.inl (tree.ends a b edge).1),
        (vertices b).mpr (.inl (tree.ends a b edge).2)⟩
    · exact ⟨(vertices a).mpr (.inl parent), (vertices b).mpr (.inr rfl)⟩
  · intro a edge
    rcases (edges a r).mp edge with edge | ⟨-, rfl⟩
    · exact tree.top a edge
    · exact new tree.root
  · intro a b d left right
    rcases (edges a d).mp left with left | ⟨rfl, rfl⟩
    · rcases (edges b d).mp right with right | ⟨rfl, rfl⟩
      · exact tree.single a b d left right
      · exact absurd (tree.ends a d left).2 new
    · rcases (edges b d).mp right with right | ⟨rfl, -⟩
      · exact absurd (tree.ends b d right).2 new
      · rfl
  · intro a vertex
    rcases (vertices a).mp vertex with vertex | rfl
    · exact old a vertex
    · exact (old p parent).tail ((edges p a).mpr (.inr ⟨rfl, rfl⟩))

theorem prune (leaf : ∀ b, ¬ E c b) (other : c ≠ r) (vertices : ∀ a, V' a ↔ V a ∧ a ≠ c)
    (edges : ∀ a b, E' a b ↔ E a b ∧ b ≠ c) :
    IsTree V' E' r := by
  have kept : ∀ a b, E' a b → E a b := fun a b edge => ((edges a b).mp edge).1
  have source : ∀ a b, E a b → a ≠ c := by
    rintro a b edge rfl
    exact leaf b edge
  -- a path to another vertex does not pass the leaf
  have around : ∀ a, ReflTransGen E r a → a ≠ c → ReflTransGen E' r a := by
    intro a path
    induction path with
    | refl => exact fun _ => .refl
    | tail _ edge ih => exact fun stays => (ih (source _ _ edge)).tail ((edges _ _).mpr ⟨edge, stays⟩)
  constructor
  · exact (vertices r).mpr ⟨tree.root, other.symm⟩
  · intro a b edge
    obtain ⟨edge, stays⟩ := (edges a b).mp edge
    exact ⟨(vertices a).mpr ⟨(tree.ends a b edge).1, source a b edge⟩,
      (vertices b).mpr ⟨(tree.ends a b edge).2, stays⟩⟩
  · exact fun a edge => tree.top a (kept a r edge)
  · exact fun a b d left right => tree.single a b d (kept a d left) (kept b d right)
  · intro a vertex
    obtain ⟨vertex, stays⟩ := (vertices a).mp vertex
    exact around a (tree.reach a vertex) stays

end IsTree

end Argentum.Lib
