/-
# Agfs.Ownership — every mapped block has one owner

A volume is its allocator and its inodes with their streams. A call changes a stream, or
the size and flags of an inode.

`streams_own_blocks` holds of every sequence of calls none of which extends a run over the
end of its group or past the 16 bits of its length. The extension asks neither
(`run_crosses_group`).
-/
import Argentum.Lib.Machine
import Argentum.Agfs.StreamBlocks

namespace Argentum.Agfs.Ownership

open Lib.Machine Function

/-! ## The machine -/

/-- The fields of an inode that decide what happens to its stream. -/
structure Inode where
  stream : Stream
  /-- `i_size`. -/
  size : Nat
  /-- `i_blocks`. -/
  sectors : Nat
  isReg : Bool
  isDir : Bool
  /-- `AGFS_INODE_INLINE_DATA`. -/
  isInline : Bool

structure Vol where
  space : Space
  /-- The inodes by block number. -/
  inodes : Nat → Option Inode

/-- `AGFS_INLINE_MAX`. -/
def inlineMax : Nat := 512

section Calls

variable (f : Format)

/-- `agfs_bmap` for writing of one block after another, up to the first that fails. -/
def bmapAll : List Nat → Work → Bool × Work
  | [], w => (true, w)
  | block :: rest, w =>
    match bmapWrite f w block with
    | (.ok _, w) => bmapAll rest w
    | (.error _, w) => (false, w)

/-- The blocks that `agfs_inline_expand` maps. -/
def inlineBlocks (size : Nat) : List Nat := List.range ((size + f.blockSize - 1) / f.blockSize)

/-- The stream part of `agfs_truncate`, with the size. -/
def cutInode (s : Space) (ino : Inode) (length : Nat) : Space × Inode :=
  let cut := truncateStream f ino.stream length
  (bfreeAll f s cut.2, { ino with stream := cut.1, size := length })

/-- `agfs_truncate`. An inline file that stays inline has no stream to cut; one that outgrows
its inode is given a stream first. -/
def truncate (s : Space) (ino : Inode) (length : Nat) : Space × Inode :=
  if ino.isReg ∧ ino.isInline then
    if length ≤ inlineMax then (s, { ino with size := length })
    else
      match bmapAll f (inlineBlocks f ino.size) ⟨s, ino.stream⟩ with
      | (false, w) => (w.space, { ino with stream := w.stream })
      | (true, w) => cutInode f w.space
          { ino with stream := w.stream, isInline := false, sectors := (ino.size + 511) / 512 }
          length
  else cutInode f s ino length

/-- `agfs_trim_prealloc`. -/
def trimPrealloc (s : Space) (ino : Inode) : Space × Inode :=
  if ino.isReg = false ∨ ino.size = 0 ∨ ino.isInline then (s, ino)
  else
    let cut := trimStream f ino.stream ino.size
    (bfreeAll f s cut.2, { ino with stream := cut.1 })

/-- Whether `agfs_ifree` truncates. -/
def holdsStream (ino : Inode) : Bool :=
  ino.sectors ≠ 0 || ((ino.isReg || ino.isDir) && !ino.isInline && ino.size ≠ 0)

end Calls

inductive Label where
  /-- `agfs_bmap` for writing. -/
  | bmap (i block : Nat)
  | truncate (i length : Nat)
  | trim (i : Nat)
  /-- `agfs_ifree`; the attribute inodes it frees first are removed by labels of their own. -/
  | remove (i : Nat)
  /-- `agfs_ialloc`. -/
  | create (isReg isDir : Bool)
  /-- A new size, `i_blocks` and inline flag, as writes leave them. -/
  | stat (i size sectors : Nat) (isInline : Bool)

section Step

variable (f : Format)

variable (v : Vol)

/-- The volume with another allocator state and another inode `i`. -/
def Vol.put (i : Nat) (result : Space × Inode) : Vol :=
  ⟨result.1, update v.inodes i (some result.2)⟩

def step : Label → Option Vol
  | .bmap i block =>
    (v.inodes i).map fun ino =>
      let w := (bmapWrite f ⟨v.space, ino.stream⟩ block).2
      v.put i (w.space, { ino with stream := w.stream })
  | .truncate i length => (v.inodes i).map fun ino => v.put i (truncate f v.space ino length)
  | .trim i => (v.inodes i).map fun ino => v.put i (trimPrealloc f v.space ino)
  | .remove i =>
    (v.inodes i).map fun ino =>
      let freed := if holdsStream ino then truncate f v.space ino 0 else (v.space, ino)
      ⟨freed.1.bfree f.toGeometry f.bpb i, update v.inodes i none⟩
  | .create isReg isDir =>
    match v.space.balloc f.toGeometry f.bpb with
    | .ok (s, i) => some (v.put i (s, ⟨.empty, 0, 0, isReg, isDir, false⟩))
    | .error _ => some v
  | .stat i size sectors isInline =>
    (v.inodes i).map fun ino =>
      v.put i (v.space, { ino with size := size, sectors := sectors, isInline := isInline })

/-! ## The property and its condition -/

/-- Every run is inside its group and as long as its length field says, no block is mapped
twice, by one stream or by two, and the mapped blocks are marked. -/
structure OwnsBlocks : Prop where
  group : ∀ i ino, v.inodes i = some ino →
    ino.stream.All fun r => r.start.toNat + r.len.toNat ≤ 2 ^ f.agShift
  length : ∀ i ino, v.inodes i = some ino → ino.stream.All fun r => r.len.toNat = r.taken
  once : ∀ i ino, v.inodes i = some ino → (ino.stream.blocks f.agShift).Nodup
  apart : ∀ i j ino jno, i ≠ j → v.inodes i = some ino → v.inodes j = some jno →
    ∀ b ∈ ino.stream.blocks f.agShift, b ∉ jno.stream.blocks f.agShift
  marked : ∀ i ino, v.inodes i = some ino → ∀ b ∈ ino.stream.blocks f.agShift,
    f.used v.space b = true

/-- The run can be extended: the block behind it is of the same group, and the length stays
in its 16 bits. -/
def Extensible (r : Run) : Prop :=
  r.start.toNat + r.len.toNat < 2 ^ f.agShift ∧ r.len.toNat + 1 < 2 ^ 16

/-- Along the blocks that an inline file is moved to. -/
def AllSafe : List Nat → Work → Prop
  | [], _ => True
  | block :: rest, w => BmapSafe f (Extensible f) w block ∧
      ∀ b w', bmapWrite f w block = (.ok b, w') → AllSafe rest w'

/-- Every run that the call extends can be extended. -/
def SafeLabel : Label → Prop
  | .bmap i block => ∀ ino, v.inodes i = some ino →
      BmapSafe f (Extensible f) ⟨v.space, ino.stream⟩ block
  | .truncate i length => ∀ ino, v.inodes i = some ino → ino.isReg = true → ino.isInline = true →
      inlineMax < length → AllSafe f (inlineBlocks f ino.size) ⟨v.space, ino.stream⟩
  | _ => True

/-- The block is the superblock's, the inode's own, or held by another inode. -/
def Others (i b : Nat) : Prop :=
  b = 0 ∨ b = i ∨ ∃ j jno, j ≠ i ∧ v.inodes j = some jno ∧ (b = j ∨ b ∈ jno.stream.blocks f.agShift)

/-- A run as the source means it. -/
def Sound (r : Run) : Prop :=
  r.len.toNat = r.taken ∧ r.start.toNat + r.taken ≤ 2 ^ f.agShift

/-- The volume is well formed: each stream fits among the others. -/
structure Owned : Prop where
  super : f.used v.space 0 = true
  inside : ∀ i ino, v.inodes i = some ino → 0 < i ∧ i < f.numBlocks
  fits : ∀ i ino, v.inodes i = some ino → Fits f (Sound f) (Others f v i) ⟨v.space, ino.stream⟩

end Step

/-! ## The invariant -/

section Inv

variable {f : Format} {v : Vol} {i : Nat} {ino : Inode} {others : Nat → Prop} {s : Space}

theorem sound_keeps : Keeps f (Extensible f) (Sound f) where
  zero := ⟨rfl, Nat.zero_le _⟩
  make first count inside _ few group := by
    have window : delallocWindow = 256 := rfl
    have shift : 2 ^ f.agShift ≤ 2 ^ 16 := Nat.pow_le_pow_right (by decide) f.shift_le
    have low : first % 2 ^ f.agShift < 2 ^ f.agShift := Nat.mod_lt _ (Nat.two_pow_pos _)
    have start : (Run.make f.agShift first count).start.toNat = first % 2 ^ f.agShift := by
      show (UInt16.ofNat (first % 2 ^ f.agShift)).toNat = _
      rw [UInt16.toNat_ofNat']
      exact Nat.mod_eq_of_lt (Nat.lt_of_lt_of_le low shift)
    refine ⟨make_len (by omega), ?_⟩
    rw [start]
    exact group
  extend r sound safe := by
    refine ⟨?_, ?_⟩
    · rw [extend_len safe.2, sound.1]
      rfl
    · show r.start.toNat + (r.taken + 1) ≤ _
      have := sound.1
      have := safe.1
      omega
  cut r keep sound most := by
    refine ⟨cut_len most, ?_⟩
    show r.start.toNat + keep ≤ _
    have := sound.1
    have := sound.2
    omega
  short r safe := safe.2

theorem put_self (i : Nat) (result : Space × Inode) :
    (v.put i result).inodes i = some result.2 := update_self _ _ _

theorem put_ne {j : Nat} (other : j ≠ i) (result : Space × Inode) :
    (v.put i result).inodes j = v.inodes j := update_of_ne other _ _

/-- What others hold after inode `i` has changed: what they held, or what `i` holds now. -/
theorem others_put {j b : Nat} (held : Others f (v.put i (s, ino)) j b) :
    (Others f v j b ∧ (b = j ∨ Others f v i b)) ∨
      j ≠ i ∧ (b = i ∨ b ∈ ino.stream.blocks f.agShift) := by
  rcases held with zero | own | ⟨k, kno, other, at_k, held⟩
  · exact .inl ⟨.inl zero, .inr (.inl zero)⟩
  · exact .inl ⟨.inr (.inl own), .inl own⟩
  · by_cases isI : k = i
    · subst isI
      rw [put_self] at at_k
      cases at_k
      exact .inr ⟨other.symm, held⟩
    · rw [put_ne isI] at at_k
      exact .inl ⟨.inr (.inr ⟨k, kno, other, at_k, held⟩),
        .inr (.inr (.inr ⟨k, kno, isI, at_k, held⟩))⟩

/-- A call on inode `i` that leaves its stream fitting leaves the volume well formed. -/
theorem Owned.put (owned : Owned f v) (found : v.inodes i = some ino)
    {ino' : Inode} (fits : Fits f (Sound f) (Others f v i) ⟨s, ino'.stream⟩) :
    Owned f (v.put i (s, ino')) := by
  refine ⟨fits.kept 0 (.inl rfl), fun j jno here => ?_, fun j jno here => ?_⟩
  · by_cases same : j = i
    · exact same ▸ owned.inside i ino found
    · rw [put_ne same] at here
      exact owned.inside j jno here
  · by_cases same : j = i
    · subst same
      have others : ∀ b, Others f (v.put j (s, ino')) j b → Others f v j b :=
        fun b held => ((others_put held).resolve_right fun other => other.1 rfl).1
      rw [put_self] at here
      cases here
      exact ⟨fits.runs, fits.nodup, fits.inside, fits.marked,
        fun b member other => fits.apart b member (others b other),
        fun b other => fits.kept b (others b other)⟩
    · rw [put_ne same] at here
      have old := owned.fits j jno here
      have mine : ∀ b, b = j ∨ b ∈ jno.stream.blocks f.agShift → Others f v i b :=
        fun b held => .inr (.inr ⟨j, jno, same, here, held⟩)
      refine ⟨old.runs, old.nodup, old.inside, fun b member => fits.kept b (mine b (.inr member)),
        fun b member other => ?_, fun b other => ?_⟩
      · rcases others_put other with ⟨before, -⟩ | ⟨-, inodeBlock | inStream⟩
        · exact old.apart b member before
        · exact old.apart b member (.inr (.inr ⟨i, ino, Ne.symm same, found, .inl inodeBlock⟩))
        · exact fits.apart b inStream (mine b (.inr member))
      · rcases others_put other with ⟨-, own | before⟩ | ⟨-, inodeBlock | inStream⟩
        · exact fits.kept b (mine b (.inl own))
        · exact fits.kept b before
        · exact fits.kept b (.inr (.inl inodeBlock))
        · exact fits.marked b inStream

theorem bmapAll_fits {blocks : List Nat} {w : Work}
    (fits : Fits f (Sound f) others w) (safe : AllSafe f blocks w) :
    Fits f (Sound f) others (bmapAll f blocks w).2 := by
  induction blocks generalizing w with
  | nil => exact fits
  | cons block rest ih =>
    have grown := bmapWrite_fits sound_keeps fits safe.1
    rw [bmapAll]
    cases done : bmapWrite f w block with
    | mk result w' =>
      rw [done] at grown
      cases result with
      | ok b => exact ih grown (safe.2 b w' done)
      | error e => exact grown

theorem truncate_fits {length : Nat} (fits : Fits f (Sound f) others ⟨s, ino.stream⟩)
    (safe : ino.isReg = true → ino.isInline = true → inlineMax < length →
      AllSafe f (inlineBlocks f ino.size) ⟨s, ino.stream⟩) :
    Fits f (Sound f) others ⟨(truncate f s ino length).1, (truncate f s ino length).2.stream⟩ := by
  unfold truncate
  split
  · rename_i isInline
    split
    · exact fits
    rename_i long
    have grown := bmapAll_fits fits (safe isInline.1 isInline.2 (Nat.lt_of_not_le long))
    split
    · rename_i w done
      rw [done] at grown
      exact grown
    · rename_i w done
      rw [done] at grown
      exact truncateStream_fits sound_keeps grown length
  · exact truncateStream_fits sound_keeps fits length

theorem trimPrealloc_fits (fits : Fits f (Sound f) others ⟨s, ino.stream⟩) :
    Fits f (Sound f) others ⟨(trimPrealloc f s ino).1, (trimPrealloc f s ino).2.stream⟩ := by
  unfold trimPrealloc
  split
  · exact fits
  · exact trimStream_fits sound_keeps fits ino.size

/-- The inode block goes last, when the stream has given up what it gives up. -/
theorem Owned.remove (owned : Owned f v) (found : v.inodes i = some ino)
    {st : Stream} (fits : Fits f (Sound f) (Others f v i) ⟨s, st⟩) :
    Owned f ⟨s.bfree f.toGeometry f.bpb i, update v.inodes i none⟩ := by
  obtain ⟨positive, inside⟩ := owned.inside i ino found
  have stays : ∀ b, b ≠ i → f.used s b = true → f.used (s.bfree f.toGeometry f.bpb i) b = true := by
    intro b other marked
    rw [used_bfree s inside]
    simp [marked, other]
  have live : ∀ j jno, update v.inodes i none j = some jno → j ≠ i ∧ v.inodes j = some jno := by
    intro j jno here
    by_cases same : j = i
    · rw [same, update_self] at here
      cases here
    · rw [update_of_ne same] at here
      exact ⟨same, here⟩
  refine ⟨stays 0 (by omega) (fits.kept 0 (.inl rfl)), fun j jno here =>
    owned.inside j jno (live j jno here).2, fun j jno here => ?_⟩
  obtain ⟨other, at_j⟩ := live j jno here
  have old := owned.fits j jno at_j
  have fewer : ∀ b, Others f ⟨s.bfree f.toGeometry f.bpb i, update v.inodes i none⟩ j b →
      Others f v j b ∧ b ≠ i ∧ Others f v i b := by
    rintro b (zero | own | ⟨k, kno, apart, at_k, held⟩)
    · exact ⟨.inl zero, by omega, .inl zero⟩
    · exact ⟨.inr (.inl own), own ▸ other, .inr (.inr ⟨j, jno, other, at_j, .inl own⟩)⟩
    · obtain ⟨notI, before⟩ := live k kno at_k
      refine ⟨.inr (.inr ⟨k, kno, apart, before, held⟩), ?_,
        .inr (.inr ⟨k, kno, notI, before, held⟩)⟩
      rintro rfl
      rcases held with rfl | inStream
      · exact notI rfl
      · exact (owned.fits k kno before).apart b inStream
          (.inr (.inr ⟨b, ino, fun same => notI same.symm, found, .inl rfl⟩))
  refine ⟨old.runs, old.nodup, old.inside, fun b member => ?_,
    fun b member held => old.apart b member (fewer b held).1, fun b held => ?_⟩
  · have notI : b ≠ i := by
      rintro rfl
      exact old.apart b member (.inr (.inr ⟨b, ino, fun same => other same.symm, found, .inl rfl⟩))
    exact stays b notI (fits.kept b (.inr (.inr ⟨j, jno, other, at_j, .inr member⟩)))
  · obtain ⟨_, notI, kept⟩ := fewer b held
    exact stays b notI (fits.kept b kept)

/-- A new inode is a block nobody held. -/
theorem Owned.create (owned : Owned f v)
    (done : v.space.balloc f.toGeometry f.bpb = .ok (s, i)) (empty : ino.stream = .empty) :
    Owned f (v.put i (s, ino)) := by
  have takes := balloc_takes done
  have free := takes.free i List.mem_cons_self
  have stays : ∀ b, f.used v.space b = true → f.used s b = true := by
    intro b marked
    rw [takes.marks, marked, Bool.true_or]
  have own : f.used s i = true := by
    rw [takes.marks]
    simp
  have positive : 0 < i := by
    rcases Nat.eq_zero_or_pos i with rfl | positive
    · exact absurd (owned.super.symm.trans free) (by decide)
    · exact positive
  have nothing : ino.stream.blocks f.agShift = [] := by rw [empty]; rfl
  -- what anyone held before is marked, so it is not the new inode's block
  have others : ∀ j b, Others f (v.put i (s, ino)) j b → b = i ∨ Others f v j b := by
    intro j b held
    rcases others_put held with ⟨before, -⟩ | ⟨-, own | inStream⟩
    · exact .inr before
    · exact .inl own
    · rw [nothing] at inStream
      exact absurd inStream List.not_mem_nil
  refine ⟨stays 0 owned.super, fun j jno here => ?_, fun j jno here => ?_⟩
  · by_cases same : j = i
    · exact same ▸ ⟨positive, takes.inside i List.mem_cons_self⟩
    · rw [put_ne same] at here
      exact owned.inside j jno here
  · by_cases same : j = i
    · subst same
      rw [put_self] at here
      cases here
      refine ⟨?_, ?_, ?_, ?_, ?_, fun b held => ?_⟩
      · rw [empty]
        exact ⟨by simp [Stream.empty], sound_keeps.zero, sound_keeps.zero, by simp [Stream.empty]⟩
      · simp [nothing]
      · simp [nothing]
      · simp [nothing]
      · simp [nothing]
      · rcases held with rfl | rfl | ⟨k, kno, apart, at_k, held⟩
        · exact stays 0 owned.super
        · exact own
        · rw [put_ne apart] at at_k
          have old := owned.fits k kno at_k
          rcases held with rfl | inStream
          · exact stays b (old.kept b (.inr (.inl rfl)))
          · exact stays b (old.marked b inStream)
    · rw [put_ne same] at here
      have old := owned.fits j jno here
      refine ⟨old.runs, old.nodup, old.inside, fun b member => stays b (old.marked b member),
        fun b member held => ?_, fun b held => ?_⟩
      · rcases others j b held with rfl | before
        · exact absurd ((old.marked b member).symm.trans free) (by decide)
        · exact old.apart b member before
      · rcases others j b held with rfl | before
        · exact own
        · exact stays b (old.kept b before)

end Inv

/-! ## Runs -/

section Runs

variable {f : Format} {v : Vol}

theorem step_owned {v' : Vol} {l : Label} (owned : Owned f v) (safe : SafeLabel f v l)
    (taken : step f v l = some v') : Owned f v' := by
  cases l with
  | bmap i block =>
    obtain ⟨ino, found, rfl⟩ := Option.map_eq_some_iff.mp taken
    exact owned.put found (bmapWrite_fits sound_keeps (owned.fits i ino found) (safe ino found))
  | truncate i length =>
    obtain ⟨ino, found, rfl⟩ := Option.map_eq_some_iff.mp taken
    exact owned.put found (truncate_fits (owned.fits i ino found) (safe ino found))
  | trim i =>
    obtain ⟨ino, found, rfl⟩ := Option.map_eq_some_iff.mp taken
    exact owned.put found (trimPrealloc_fits (owned.fits i ino found))
  | remove i =>
    obtain ⟨ino, found, rfl⟩ := Option.map_eq_some_iff.mp taken
    have fits := owned.fits i ino found
    cases holdsStream ino with
    | false => exact owned.remove found fits
    | true =>
      have cut := truncate_fits fits fun _ _ long => absurd long (Nat.not_lt_zero _)
      exact owned.remove found cut
  | create isReg isDir =>
    simp only [step] at taken
    split at taken
    · rename_i s i done
      cases taken
      exact owned.create done rfl
    · cases taken
      exact owned
  | stat i size sectors isInline =>
    obtain ⟨ino, found, rfl⟩ := Option.map_eq_some_iff.mp taken
    exact owned.put found (owned.fits i ino found)

theorem Owned.ownsBlocks (owned : Owned f v) : OwnsBlocks f v := by
  have all : ∀ i ino, v.inodes i = some ino → ino.stream.All (Sound f) :=
    fun i ino found => (owned.fits i ino found).runs
  have mono : ∀ {st : Stream} {P : Run → Prop}, (∀ r, Sound f r → P r) → st.All (Sound f) →
      st.All P := fun weaker all =>
    ⟨fun r member => weaker r (all.direct r member), weaker _ all.indirect, weaker _ all.double,
      fun runs inTables r member => weaker r (all.tables runs inTables r member)⟩
  exact
    { group := fun i ino found => mono (fun r sound => by rw [sound.1]; exact sound.2)
        (all i ino found)
      length := fun i ino found => mono (fun r sound => sound.1) (all i ino found)
      once := fun i ino found => (owned.fits i ino found).nodup
      apart := fun i j ino jno other at_i at_j b inI inJ => (owned.fits i ino at_i).apart b inI
        (.inr (.inr ⟨j, jno, other.symm, at_j, .inr inJ⟩))
      marked := fun i ino found => (owned.fits i ino found).marked }

/-- **Every mapped block has one owner and is marked, and every run lies in its group and is
as long as its length says**, after any sequence of calls none of which extends a run over
the end of its group or past the 16 bits of its length. -/
theorem streams_own_blocks {v₀ v : Vol} {ls : List Label} (start : Owned f v₀)
    (safe : Guarded (step f) (SafeLabel f) v₀ ls) (ran : run (step f) v₀ ls = some v) :
    OwnsBlocks f v :=
  Owned.ownsBlocks (run_inv (I := Owned f)
    (fun _ _ _ owned safe taken => step_owned owned safe taken) start safe ran)

end Runs

/-! ## Poles -/

/-- Three groups of eight blocks. -/
def threeGroups : Format where
  agShift := 3
  numBlocks := 24
  numAgs := 3
  blocksPerAg := 1
  logBlocks := { allocationGroup := 0, start := 4, len := 1 }
  shift_le := by decide
  numBlocks_le := by decide
  bitmap_below_log := by decide
  log_inside := by decide
  bits := 10
  group_bits := by decide

/-- Only the superblock, the bitmap and the log are marked. -/
def blankVol : Vol where
  space := { bitmap := fun off => decide (off < 5), nextFree := 5, usedBlocks := 5 }
  inodes _ := none

theorem blankVol_owned : Owned threeGroups blankVol where
  super := rfl
  inside i ino found := by cases found
  fits i ino found := by cases found

/-- A file gets a window, is trimmed to its size and cut; then there is a directory. -/
def shortLife : List Label :=
  [.create true false, .bmap 5 0, .stat 5 1000 2 false, .trim 5, .truncate 5 500,
    .create false true]

theorem shortLife_safe : Guarded (step threeGroups) (SafeLabel threeGroups) blankVol shortLife := by
  refine ⟨trivial, fun v taken => ⟨fun ino found => ?_, fun v taken' => ⟨trivial, fun v taken'' =>
    ⟨trivial, fun v taken₃ => ⟨fun ino found _ _ long => absurd long (by decide), fun _ _ =>
      ⟨trivial, fun _ _ => trivial⟩⟩⟩⟩⟩⟩
  cases taken
  cases found
  -- the stream is empty: there is no run to extend, and the first window reaches the block
  intro s nb wlen done short
  have positive := (ballocContig_takes (by decide) done).1
  omega

theorem streams_own_blocks_shortLife :
    ∃ v, run (step threeGroups) blankVol shortLife = some v ∧ OwnsBlocks threeGroups v :=
  ⟨_, rfl, streams_own_blocks blankVol_owned shortLife_safe rfl⟩

/-- The window ends with its group; the next block is taken from the group behind it. -/
def crossing : List Label := [.create true false, .bmap 5 0, .bmap 5 2]

/-- The file's one run: blocks 6 and 7 of group 0, and block 0 of group 1. -/
def crossedTest (v : Vol) : Bool :=
  (v.inodes 5).any fun ino => ino.stream.direct == [⟨⟨0, 6, 3⟩, 3⟩]

theorem crossing_crosses : (run (step threeGroups) blankVol crossing).any crossedTest = true := by
  decide +kernel

/-- **A run is extended into the next group**: its three blocks begin at offset 6 of a group of
eight. -/
theorem run_crosses_group :
    ∃ v, Owned threeGroups blankVol ∧ run (step threeGroups) blankVol crossing = some v ∧
      ¬ OwnsBlocks threeGroups v := by
  obtain ⟨v, ran, found⟩ := (Option.any_eq_true _ _).mp crossing_crosses
  rw [crossedTest, Option.any_eq_true] at found
  obtain ⟨ino, here, direct⟩ := found
  rw [beq_iff_eq] at direct
  refine ⟨v, blankVol_owned, ran, fun owns => ?_⟩
  have inside := (owns.group 5 ino here).direct ⟨⟨0, 6, 3⟩, 3⟩
    (by rw [direct]; exact List.mem_cons_self)
  exact absurd inside (by decide)

end Argentum.Agfs.Ownership
