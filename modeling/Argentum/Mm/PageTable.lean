/-
# Mm.PageTable — the user leaves of all page tables

Every process has its own four-level table; what the memory code looks at are the 4 KB leaves.
The leaves of all tables stand in one list, each with the root of its table. The upper levels only
show in `create_pml4_64`, which walks the leaves in address order and may fail to get a table page
before any leaf table; `stop` is the leaf table that it did not get.
-/
import Argentum.Mm.Vma
import Mathlib.Data.List.Nodup
import Mathlib.Data.List.Perm.Basic

namespace Argentum.Mm

open List

/-- A present leaf: the page `vpage` of the table `root` is the physical page `phys`. -/
structure Pte where
  root : Nat
  vpage : Nat
  phys : Nat
  rw : Bool
  us : Bool
  deriving DecidableEq

def Pte.key (e : Pte) : Nat × Nat := (e.root, e.vpage)

section

variable (vs : List Vma) (parent : Nat) (stop : Option Nat) (ptes : List Pte)

/-- `user_leaf64_in`. -/
def userLeaf (root vpage : Nat) : Option Pte :=
  (ptes.find? fun e => e.key = (root, vpage)).filter (·.us)

/-- `unmap_user_page64_in`. -/
def unmapUserPage (root vpage : Nat) : List Pte :=
  ptes.filter fun e => e.key ≠ (root, vpage)

/-- `map_user_page64_in`, once the tables above the leaf are there. -/
def mapUserPage (root vpage phys : Nat) (rw : Bool) : List Pte :=
  ⟨root, vpage, phys, rw, true⟩ :: unmapUserPage ptes root vpage

/-- `vma_is_shared`. -/
def vmaIsShared (addr : Nat) : Bool :=
  match findVmaRegion vs addr with
  | some (_, r, _) => r.flags &&& mapShared ≠ 0
  | none => false

/-- The leaf that `create_pml4_64` leaves in both tables. -/
def cowLeaf (e : Pte) : Pte :=
  if e.us && e.rw && !vmaIsShared vs (e.vpage * pageSize) then { e with rw := false } else e

/-- The leaves of `parent` that `create_pml4_64` came to. -/
def reached (e : Pte) : Bool :=
  e.root = parent && stop.all fun t => e.vpage / 512 < t

/-- The parent's table after `create_pml4_64`. -/
def protectLeaves : List Pte :=
  ptes.map fun e => if reached parent stop e then cowLeaf vs e else e

/-- The child's table. -/
def copyLeaves (parent child : Nat) (stop : Option Nat) (ptes : List Pte) : List Pte :=
  (ptes.filter (reached parent stop)).map fun e => { cowLeaf vs e with root := child }

end

open Pte

section Leaves

variable {ptes : List Pte} {root vpage : Nat} {e : Pte}

theorem cowLeaf_phys (vs : List Vma) (e : Pte) : (cowLeaf vs e).phys = e.phys := by
  unfold cowLeaf
  split <;> rfl

theorem cowLeaf_key (vs : List Vma) (e : Pte) : (cowLeaf vs e).key = e.key := by
  unfold cowLeaf
  split <;> rfl

theorem cowLeaf_us (vs : List Vma) (e : Pte) : (cowLeaf vs e).us = e.us := by
  unfold cowLeaf
  split <;> rfl

theorem userLeaf_some (found : userLeaf ptes root vpage = some e) :
    e ∈ ptes ∧ e.key = (root, vpage) ∧ e.us = true := by
  rw [userLeaf, Option.filter_eq_some_iff] at found
  exact ⟨mem_of_find?_eq_some found.1, by simpa using List.find?_some found.1, found.2⟩

theorem mem_unmapUserPage :
    e ∈ unmapUserPage ptes root vpage ↔ e ∈ ptes ∧ e.key ≠ (root, vpage) := by
  simp [unmapUserPage]

section

variable (nodup : (ptes.map Pte.key).Nodup)

include nodup

theorem nodup_unmapUserPage (root vpage : Nat) : ((unmapUserPage ptes root vpage).map key).Nodup :=
  nodup.sublist (filter_sublist.map key)

theorem eq_of_key {f : Pte} (inE : e ∈ ptes) (inF : f ∈ ptes) (same : e.key = f.key) : e = f :=
  inj_on_of_nodup_map nodup inE inF same

theorem userLeaf_of_mem (member : e ∈ ptes) (user : e.us = true) :
    userLeaf ptes e.root e.vpage = some e := by
  cases found : ptes.find? fun f => f.key = (e.root, e.vpage) with
  | none =>
    rw [List.find?_eq_none] at found
    exact absurd (decide_eq_true rfl) (found e member)
  | some f =>
    have key : f.key = (e.root, e.vpage) := by simpa using List.find?_some found
    have same : f = e := eq_of_key nodup (mem_of_find?_eq_some found) member key
    simp [userLeaf, found, same, user]

/-- Leaves have different keys, so unmapping takes one leaf away. -/
theorem perm_unmapUserPage (member : e ∈ ptes) :
    ptes.Perm (e :: unmapUserPage ptes e.root e.vpage) := by
  induction ptes with
  | nil => cases member
  | cons f ptes ih =>
    rw [map_cons, nodup_cons] at nodup
    rcases mem_cons.mp member with rfl | member
    · have others : unmapUserPage ptes e.root e.vpage = ptes := by
        rw [unmapUserPage, filter_eq_self]
        intro g inside
        have other : g.key ≠ e.key := fun same => nodup.1 (same ▸ mem_map_of_mem inside)
        exact decide_eq_true other
      rw [unmapUserPage, filter_cons_of_neg (by simp [key]), ← unmapUserPage, others]
    · have other : f.key ≠ (e.root, e.vpage) :=
        fun same => nodup.1 (by rw [same]; exact mem_map_of_mem member)
      rw [unmapUserPage, filter_cons_of_pos (by simpa using other)]
      exact ((ih nodup.2 member).cons f).trans (List.Perm.swap e f _)

theorem userLeaf_eq_some :
    userLeaf ptes root vpage = some e ↔ e ∈ ptes ∧ e.key = (root, vpage) ∧ e.us = true := by
  refine ⟨userLeaf_some, fun ⟨member, key, user⟩ => ?_⟩
  obtain ⟨rfl, rfl⟩ : e.root = root ∧ e.vpage = vpage := by simpa [Pte.key] using key
  exact userLeaf_of_mem nodup member user

end

theorem userLeaf_unmapUserPage (ptes : List Pte) (root vpage root' vpage' : Nat) :
    userLeaf (unmapUserPage ptes root vpage) root' vpage' =
      if root' = root ∧ vpage' = vpage then none else userLeaf ptes root' vpage' := by
  unfold userLeaf unmapUserPage
  split
  case isTrue same =>
    rw [List.find?_eq_none.mpr (by simp [same])]
    rfl
  case isFalse other =>
    rw [List.find?_filter]
    congr 2
    funext e
    by_cases here : e.key = (root', vpage')
    · simpa [here, ← not_and_or] using other
    · simp [here]

theorem userLeaf_mapUserPage (ptes : List Pte) (root vpage phys : Nat) (rw : Bool)
    (root' vpage' : Nat) :
    userLeaf (mapUserPage ptes root vpage phys rw) root' vpage' =
      if root' = root ∧ vpage' = vpage then some ⟨root, vpage, phys, rw, true⟩
      else userLeaf ptes root' vpage' := by
  have unmapped := userLeaf_unmapUserPage ptes root vpage root' vpage'
  split
  case isTrue same => simp [userLeaf, mapUserPage, same, key]
  case isFalse other =>
    have differs : (root, vpage) ≠ (root', vpage') := by
      rintro ⟨⟩
      exact other ⟨rfl, rfl⟩
    rw [if_neg other] at unmapped
    rw [← unmapped, userLeaf, mapUserPage, List.find?_cons_of_neg (by simpa [key] using differs)]
    rfl

end Leaves

/-! ## The two tables of a fork -/

section Fork

variable {vs : List Vma} {ptes : List Pte} {parent child : Nat} {stop : Option Nat} {e : Pte}

theorem protectLeaves_eq_map (vs : List Vma) (parent : Nat) (stop : Option Nat) (ptes : List Pte) :
    ∃ f : Pte → Pte, protectLeaves vs parent stop ptes = ptes.map f ∧
      (∀ e, (f e).key = e.key ∧ (f e).phys = e.phys ∧ (f e).us = e.us) ∧
      ∀ e, reached parent stop e = true → f e = cowLeaf vs e := by
  refine ⟨_, rfl, fun e => ?_, fun e here => if_pos here⟩
  split
  · exact ⟨cowLeaf_key vs e, cowLeaf_phys vs e, cowLeaf_us vs e⟩
  · exact ⟨rfl, rfl, rfl⟩

theorem mem_copyLeaves :
    e ∈ copyLeaves vs parent child stop ptes ↔
      ∃ f ∈ ptes, reached parent stop f = true ∧ e = { cowLeaf vs f with root := child } := by
  simp only [copyLeaves, mem_map, mem_filter, and_assoc, eq_comm]

theorem cowLeaf_vpage (vs : List Vma) (e : Pte) : (cowLeaf vs e).vpage = e.vpage :=
  congrArg Prod.snd (cowLeaf_key vs e)

theorem nodup_fork (nodup : (ptes.map key).Nodup) (noChild : ∀ e ∈ ptes, e.root ≠ child) :
    ((protectLeaves vs parent stop ptes ++ copyLeaves vs parent child stop ptes).map
      key).Nodup := by
  obtain ⟨f, protect, kept, -⟩ := protectLeaves_eq_map vs parent stop ptes
  rw [protect, map_append, map_map, nodup_append]
  have sameKeys : ptes.map (key ∘ f) = ptes.map key :=
    map_congr_left fun e _ => (kept e).1
  refine ⟨sameKeys ▸ nodup, ?_, ?_⟩
  · rw [copyLeaves, map_map]
    refine List.Nodup.map_on (fun a inA b inB same => ?_) (nodup.of_map.filter _)
    rw [mem_filter] at inA inB
    have vpage : a.vpage = b.vpage := by simpa [key, cowLeaf_vpage] using same
    have rootA : a.root = parent := by
      have := inA.2
      simp only [reached, Bool.and_eq_true, decide_eq_true_eq] at this
      exact this.1
    have rootB : b.root = parent := by
      have := inB.2
      simp only [reached, Bool.and_eq_true, decide_eq_true_eq] at this
      exact this.1
    exact eq_of_key nodup inA.1 inB.1 (by simp [key, vpage, rootA, rootB])
  · intro a inA b inB same
    rw [sameKeys, mem_map] at inA
    obtain ⟨e, member, rfl⟩ := inA
    obtain ⟨g, inCopies, rfl⟩ := mem_map.mp inB
    obtain ⟨f, -, -, rfl⟩ := mem_copyLeaves.mp inCopies
    exact noChild e member (congrArg Prod.fst same)

end Fork

end Argentum.Mm
