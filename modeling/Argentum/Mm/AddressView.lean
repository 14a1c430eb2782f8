/-
# Mm.AddressView — what the calls do to single addresses

`Sees vs x k` says that the address `x` lies in a region of the list and what that region gives it:
protection, flags, and for a file mapping the inode and the offset in the file. The calls split and
merge regions; on this relation they act address by address.
-/
import Argentum.Mm.CowAccounting
import Argentum.Mm.ForkPages

namespace Argentum.Mm

open Lib Lib.Machine List

/-! ## Pages -/

section Pages

open CowAccounting CowAccounting.Memory

variable {m : Memory} {root u : Nat}

theorem leaf_kept {vpages : List Nat}
    (left : userLeaf (vpages.foldl (freeVmaPage root) m).ptes root u ≠ none) :
    userLeaf m.ptes root u ≠ none ∧ u ∉ vpages := by
  induction vpages generalizing m with
  | nil => exact ⟨left, not_mem_nil⟩
  | cons v vpages ih =>
    obtain ⟨kept, other⟩ := ih left
    have leaf : userLeaf (freeVmaPage root m v).ptes root u =
        if u = v then none else userLeaf m.ptes root u := by
      unfold freeVmaPage
      split
      case h_1 absent =>
        split
        case isTrue same => rw [same, absent]
        case isFalse => rfl
      case h_2 e _ =>
        have ptes : ∀ m' : Memory, (m'.releasePage e.phys).ptes = m'.ptes := fun _ => rfl
        simp only
        split <;> simp [ptes, setPage_ptes, userLeaf_unmapUserPage]
    rw [leaf] at kept
    by_cases same : u = v
    · simp [same] at kept
    · exact ⟨by simpa [same] using kept, by simp [same, other]⟩

theorem pieces_kept {pieces : List (Nat × Nat)}
    (left : userLeaf (pieces.foldl (fun m piece => freeVmaPages root m piece.1 piece.2) m).ptes root
      u ≠ none) :
    userLeaf m.ptes root u ≠ none ∧ ∀ piece ∈ pieces, u ∉ piecePages piece := by
  induction pieces generalizing m with
  | nil => exact ⟨left, by simp⟩
  | cons piece pieces ih =>
    obtain ⟨kept, others⟩ := ih left
    obtain ⟨old, outside⟩ := leaf_kept kept
    refine ⟨old, forall_mem_cons.mpr ⟨?_, others⟩⟩
    simpa [piecePages] using outside

/-- The length in whole pages. -/
def roundUp (length : Nat) : Nat := (length + (pageSize - 1)) / pageSize * pageSize

/-- The range is in no region, none of its pages is mapped, and the other addresses see what they
saw. -/
structure Unmapped (root : Nat) (vs vs' : List Vma) (ptes : List Pte) (addr length : Nat) :
    Prop where
  regions : ∀ x, addr ≤ x → x < addr + length → x ∉ mapped vs'
  pages : ∀ v, addr ≤ v * pageSize → v * pageSize < addr + length → userLeaf ptes root v = none
  others : ∀ x k, ¬(addr ≤ x ∧ x < addr + length) → (Sees vs' x k ↔ Sees vs x k)

/-- The range is free; or it does not begin at 0, its length fits 32 bits, what is mapped in it has
no hole in front and no piece of 2 GiB, and there is memory to cut a region that goes on behind. -/
def Unmappable (vs : List Vma) (addr length : Nat) (mem : List Bool) : Prop :=
  (∀ r ∈ vs, 0 < length → r.start < addr + length → r.stop ≤ addr) ∨
    (0 < addr ∧ length < 2 ^ 32 ∧ PrefixMapped vs addr length ∧ SmallPieces vs addr length ∧
      ∀ r ∈ vs, r.start < addr + length → addr + length < r.stop → mem.head? = some true)

/-- **`munmap` removes its range and nothing else**, if it can. -/
theorem munmap_removes (m : Memory) (root : Nat) (vs : List Vma) (addr length : Nat)
    (mem : List Bool) (space : Space vs)
    (held : ∀ v, userLeaf m.ptes root v ≠ none → v * pageSize ∈ mapped vs) (fits : length < 2 ^ 32)
    (returned : (doMunmap vs addr length mem).1 = .ok ())
    (able : Unmappable vs addr (roundUp length) mem) :
    Unmapped root vs (doMunmap vs addr length mem).2.1 (m.munmap root vs addr length mem).ptes addr
      (roundUp length) := by
  have size : unmapLength length ≤ roundUp length ∧
      (roundUp length < 2 ^ 32 → unmapLength length = roundUp length) := by
    unfold unmapLength pageAlign32 pageMask roundUp pageSize
    omega
  unfold munmap
  rcases doMunmap_cases mem space addr length with failed | ⟨above, done⟩ | ⟨range, done⟩
  · rw [failed] at returned
    cases returned
  · -- behind the user half nothing is mapped
    have clear : ∀ x, addr ≤ x → x ∉ mapped vs := by
      rintro x low ⟨r, member, inside⟩
      have := (space.user r member).2.2
      omega
    rw [done]
    refine ⟨fun x low _ => clear x low, fun v low _ => ?_, fun _ _ _ => Iff.rfl⟩
    by_contra left
    exact clear _ low (held v (pieces_kept left).1)
  · have small : SmallPieces vs addr (unmapLength length) := by
      rcases able with free | ⟨-, short, -, small, -⟩
      · intro r member
        have := free r member
        omega
      · rwa [size.2 short]
    have clear : ∀ x, addr ≤ x → x < addr + roundUp length →
        x ∉ mapped (munmapLoop (unmapLength length) vs addr (unmapLength length) mem).1 := by
      intro x low high
      rcases able with free | ⟨positive, short, front, small, memory⟩
      · intro covered
        obtain ⟨r, member, inside⟩ := (munmapLoop_space _ mem space range small).2.1.mapped covered
        have := free r member
        omega
      · rw [size.2 short] at range ⊢
        exact munmapLoop_clears _ mem space range small le_rfl positive front memory x low high
    rw [done]
    refine ⟨clear, fun v low high => ?_, fun x k outside => ?_⟩
    · by_contra left
      obtain ⟨old, kept⟩ := pieces_kept left
      exact clear _ low high (munmapPieces_covers _ mem space range small (held v old) kept)
    · exact (munmapLoop_space _ mem space range small).2.2 x k (by omega)

end Pages

/-! ## Changing the protection -/

/-- What an address sees after `mprotect` of the range. -/
def reprotect (addr length prot x : Nat) (k : View) : View :=
  if addr ≤ x ∧ x < addr + length then (prot, k.2) else k

section Mprotect

variable {vs vs' pre post : List Vma} {r : Vma} {addr length x bound : Nat} {k : View}
  {mem : List Bool}

/-- The two parts of a region that is cut at `bound`. -/
theorem sees_parts (p q : Nat) (low : r.start ≤ bound) (high : bound ≤ r.stop) :
    Sees [{ r with stop := bound, prot := p },
        { r with start := bound, offset := r.offset + .ofNat (bound - r.start), prot := q }] x k ↔
      ∃ k₀, r.Shows x k₀ ∧ (if x < bound then p else q, k₀.2) = k := by
  rw [sees_cons, sees_cons, shows_front (r := { r with prot := p }) high,
    shows_back (r := { r with prot := q }) low]
  rcases Nat.lt_or_ge x bound with front | back
  · simp [Sees, Vma.Shows, Vma.view, front, Nat.not_le.mpr front]
  · simp [Sees, Vma.Shows, Vma.view, back, Nat.not_lt.mpr back]

/-- A cut at one end of the range changes the protection of the range. -/
theorem sees_protected (bound p q prot : Nat) (space : Space (pre ++ r :: post))
    (first : r.start ≤ bound) (last : bound ≤ r.stop) (low : r.start ≤ addr)
    (high : addr + length ≤ r.stop) (same : ∀ x, r.start ≤ x → x < r.stop →
      (if x < bound then p else q) = if addr ≤ x ∧ x < addr + length then prot else r.prot) :
    Sees (pre ++ { r with stop := bound, prot := p } :: { r with
        start := bound, offset := r.offset + .ofNat (bound - r.start), prot := q } :: post) x k ↔
      ∃ k₀, Sees (pre ++ r :: post) x k₀ ∧ reprotect addr length prot x k₀ = k := by
  rw [append_cons, append_cons, append_assoc pre]
  refine sees_replace (R := fun x k₀ k => reprotect addr length prot x k₀ = k) space (fun x k => ?_)
    fun x outside k₀ k => ?_
  · rw [singleton_append, sees_parts p q first last]
    refine exists_congr fun k₀ => and_congr_right fun shows => ?_
    obtain ⟨inside, rfl⟩ := shows
    rw [same x inside.1 inside.2, reprotect]
    split <;> rfl
  · rw [reprotect, if_neg (by omega)]

/-- `mprotect` of a range that begins or ends where its region does. -/
theorem sysMprotect_sees {prot : Int} (space : Space vs) (aligned : length % pageSize = 0)
    (fits : length < 2 ^ 32) (done : sysMprotect vs addr length prot mem = (.ok (), vs'))
    (ends : ∀ r ∈ vs, r.start ≤ addr → addr < r.stop → r.start = addr ∨ r.stop = addr + length) :
    Sees vs' x k ↔ ∃ k₀, Sees vs x k₀ ∧ reprotect addr length (prot % 2 ^ 8).toNat x k₀ = k := by
  unfold sysMprotect at done
  split at done
  · cases done
  case h_2 pre r post checked =>
  obtain ⟨rfl, low, inside, whole, high⟩ := mprotectChecks_ok checked
  have cut := ends r (by simp) low inside
  obtain ⟨-, -, user, before, after⟩ := Space.middle_iff.mp space
  have size : unmapLength length = length := by
    rw [unmapLength_of_mod aligned, Nat.mod_eq_of_lt fits]
  have bound := user.2.2
  unfold userStackTop at bound
  have stop : add64 addr length = addr + length := add64_eq (by omega)
  rw [size, stop] at high
  change doMprotect pre r post addr (unmapLength length) _ mem = _ at done
  rw [size] at done
  unfold doMprotect at done
  simp only [stop] at done
  generalize (prot % 2 ^ 8).toNat = prot at done ⊢
  split at done
  case isTrue all =>
    cases done
    rw [← sees_protected r.stop prot 0 prot space (low.trans inside.le) le_rfl low high]
    · have empty : ∀ b : Vma, b.start = b.stop → ¬b.Shows x k := by
        rintro b same ⟨inside, -⟩
        omega
      simp [sees_append, sees_cons, empty]
    · intro y first last
      rw [if_pos last, if_pos (by omega)]
  case isFalse part =>
  split at done
  case h_2 => cases done
  case h_1 rest =>
  split at done
  case isTrue atStart =>
    cases done
    rw [append_cons, sees_touch]
    · rw [← sees_protected (addr + length) prot r.prot prot space (by omega) high low high]
      · simp [atStart]
      · intro y first last
        split <;> split <;> omega
    · exact space.early (by rfl) (low.trans (Nat.le_add_right addr length))
    · rfl
    · exact high
    · show addr + length < 2 ^ 64
      omega
    · intro b member
      have := after b member
      show addr + length < b.start
      omega
  case isFalse inner =>
    cases done
    rw [sub64_eq low (by omega), sees_insert]
    · rw [← sees_protected addr r.prot prot prot space low inside.le low high]
      intro y first last
      split <;> split <;> omega
    · exact space.split rfl rfl rfl (by show r.start < addr; omega) inside whole

/-- `sys_mprotect` of the process `root`. It does not look at the page table. -/
def World.sysMprotect (w : World) (root addr length : Nat) (prot : Int) (mem : List Bool) : World :=
  { w with vmas := Function.update w.vmas root
            (Mm.sysMprotect (w.vmas root) addr length prot mem).2 }

/-- **`mprotect` changes the protection of its range**, if that begins or ends where the region
does, and of no other address. Pages that are mapped keep their rights. -/
theorem mprotect_range (w : World) (root addr length : Nat) (prot : Int) (mem : List Bool)
    (space : Space (w.vmas root)) (aligned : length % pageSize = 0) (fits : length < 2 ^ 32)
    (returned : (sysMprotect (w.vmas root) addr length prot mem).1 = .ok ())
    (ends : ∀ r ∈ w.vmas root, r.start ≤ addr → addr < r.stop →
      r.start = addr ∨ r.stop = addr + length) :
    (∀ x k, Sees ((w.sysMprotect root addr length prot mem).vmas root) x k ↔
        ∃ k₀, Sees (w.vmas root) x k₀ ∧ reprotect addr length (prot % 2 ^ 8).toNat x k₀ = k) ∧
      ∀ x rsp b page, (userLeaf w.ptes root (x / pageSize)).any (·.rw) = true →
        ((w.sysMprotect root addr length prot mem).access root x rsp (some b) page).2 = some b := by
  constructor
  · intro x k
    simp only [World.sysMprotect, Function.update_self]
    exact sysMprotect_sees space aligned fits (Prod.ext returned rfl) ends
  · intro x rsp b page present
    rw [Option.any_eq_true] at present
    obtain ⟨e, leaf, writable⟩ := present
    simp [World.access, World.settle, World.perform, World.sysMprotect, leaf, writable]

end Mprotect

/-! ## Poles -/

open CowAccounting

theorem program_space : Space program.vmas :=
  ⟨wellFormed_iff.mp (by decide +kernel), by decide +kernel⟩

/-- The heap page of the program is mapped and writable. -/
def heapPage : Pte := ⟨1, 0x500, 9, true, true⟩

theorem munmap_removes_heap :
    let m : Memory := ⟨[heapPage], fun _ => some program.vmas, fun _ => ⟨1, .user⟩, 16⟩
    Unmapped 1 program.vmas (doMunmap program.vmas 0x500000 0x1000 []).2.1
      (m.munmap 1 program.vmas 0x500000 0x1000 []).ptes 0x500000 0x1000 := by
  refine munmap_removes _ 1 program.vmas 0x500000 0x1000 [] program_space (fun v leaf => ?_)
    (by decide) (by decide +kernel)
    (.inr ⟨by decide, by decide, ?_, by decide +kernel, by decide +kernel⟩)
  · obtain ⟨e, found⟩ := Option.ne_none_iff_exists'.mp leaf
    obtain ⟨member, key, -⟩ := userLeaf_some found
    obtain rfl := mem_singleton.mp member
    cases key
    exact ⟨_, mem_cons_of_mem _ mem_cons_self, by decide, by decide⟩
  · intro x _ _ high y low le
    exact ⟨_, mem_cons_of_mem _ mem_cons_self, low, lt_of_le_of_lt le high⟩

/-- **`munmap` returns 0 and leaves regions in its range**: it stops at a hole in front of the text,
and it goes on when it cannot cut the text in two. -/
theorem munmap_leaves_text :
    ((doMunmap program.vmas 0x3ff000 0x2000 [true]).1 = .ok () ∧
        0x400000 ∈ mapped (doMunmap program.vmas 0x3ff000 0x2000 [true]).2.1) ∧
      (doMunmap program.vmas 0x400000 0x1000 []).1 = .ok () ∧
        0x400000 ∈ mapped (doMunmap program.vmas 0x400000 0x1000 []).2.1 := by
  refine ⟨⟨by decide +kernel, ?_⟩, by decide +kernel, ?_⟩
  · exact ⟨_, mem_cons_self, by decide +kernel, by decide +kernel⟩
  · exact ⟨_, mem_cons_self, by decide +kernel, by decide +kernel⟩

def loadedWorld : World :=
  ⟨[heapPage], fun _ => program.vmas, fun _ _ => 0, fun _ => true, fun _ _ => none, fun _ _ => none,
    fun _ _ _ => 0⟩

/-- The second page of the text. -/
theorem mprotect_range_text :
    Sees ((loadedWorld.sysMprotect 1 0x401000 0x1000 1 [true]).vmas 1) 0x401010
        (1, 0x12, some (7, 0x1010)) ∧
      Sees ((loadedWorld.sysMprotect 1 0x401000 0x1000 1 [true]).vmas 1) 0x400010
        (5, 0x12, some (7, 0x10)) := by
  have changed := (mprotect_range loadedWorld 1 0x401000 0x1000 1 [true] program_space (by decide)
    (by decide) (by decide +kernel) (by decide +kernel)).1
  exact ⟨(changed 0x401010 _).mpr ⟨_, ⟨_, mem_cons_self, by decide, rfl⟩, rfl⟩,
    (changed 0x400010 _).mpr ⟨_, ⟨_, mem_cons_self, by decide, rfl⟩, rfl⟩⟩

/-- **A page that may only be read is written**: it was writable before the `mprotect`. -/
theorem mprotect_leaves_writable :
    (sysMprotect (loadedWorld.vmas 1) 0x500000 0x1000 1 []).1 = .ok () ∧
      ((loadedWorld.sysMprotect 1 0x500000 0x1000 1 []).vmas 1).any
        (fun r => r.start = 0x500000 && r.prot &&& protWrite = 0) = true ∧
      ((loadedWorld.sysMprotect 1 0x500000 0x1000 1 []).access 1 0x500010 0 (some 7) none).2 =
        some 7 := by
  decide +kernel

end Argentum.Mm
