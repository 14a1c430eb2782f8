/-
# Agfs.SuperRecovery — what becomes of a recovered superblock

A mount that had to take copy B mirrors it over copy A, but only in the 1024-byte buffer it
read block 0 into, which it does not mark dirty. The journal reads block 0 again, with the
volume's block size, changes the log fields of copy A and stamps both copies
(`agfs_log_write_super`). Buffers are looked up by size as well, so the journal meets the
mirrored copy only on volumes with 1024-byte blocks, and there only while the buffer has
stayed in the cache. Otherwise it stamps the torn copy A over the copy the mount was saved
by.

`recovery_persists_iff` says this exactly, for any run of cache events and publications
after such a mount. `torn_copy_published` is a volume lost that way.
-/
import Argentum.Agfs.Superblock

namespace Argentum.Agfs.SuperRecovery

open Superblock

/-! ## Block 0 in the cache -/

/-- A buffer of block 0. -/
structure Cached where
  data : Block0
  dirty : Bool
  deriving DecidableEq

/-- `AGFS_BLOCK_SIZE`, the size of the mount's probe read. -/
def probeSize : Nat := 1024

structure Vol where
  disk : Block0
  /-- The buffers of block 0, by their size. -/
  cache : Nat → Option Cached
  blockSize : Nat
  sbSeq : UInt64

/-- The log fields the journal publishes, and `flags`. -/
structure LogFields where
  flags : UInt32
  logBlocks : UInt32 × UInt32
  logStart : UInt32 × UInt32
  logEnd : UInt32 × UInt32

inductive Event where
  /-- Anybody reads block 0. -/
  | bread (size : Nat)
  /-- A dirty buffer is written to the disk, by a sync or on its way to being recycled. -/
  | writeBack (size : Nat)
  /-- A clean buffer is recycled or reclaimed. -/
  | evict (size : Nat)
  /-- `agfs_log_write_super`. -/
  | publish (fields : LogFields)

namespace Vol

variable (v : Vol)

/-- What `bread` returns. -/
def read (size : Nat) : Block0 := ((v.cache size).map Cached.data).getD v.disk

def setCache (size : Nat) (c : Option Cached) : Vol :=
  { v with cache := Function.update v.cache size c }

/-- The struct of the next publication. -/
def publication (fields : LogFields) : Words :=
  (SbWrite.logSuper fields.flags fields.logBlocks fields.logStart fields.logEnd).fill
    (v.read v.blockSize).a.words

def step : Event → Vol
  | .bread size =>
    match v.cache size with
    | some _ => v
    | none => v.setCache size (some ⟨v.disk, false⟩)
  | .writeBack size =>
    match v.cache size with
    | some ⟨data, true⟩ => { v.setCache size (some ⟨data, false⟩) with disk := data }
    | _ => v
  | .evict size =>
    match v.cache size with
    | some ⟨_, false⟩ => v.setCache size none
    | _ => v
  | .publish fields =>
    let c := stampCopy v.sbSeq (v.publication fields)
    { v.setCache v.blockSize (some ⟨⟨c, c⟩, true⟩) with sbSeq := v.sbSeq + 1 }

def run (events : List Event) : Vol := events.foldl step v

/-- The structs published along a run. -/
def published : Vol → List Event → List Words
  | _, [] => []
  | v, .publish fields :: rest =>
    v.publication fields :: published (v.step (.publish fields)) rest
  | v, event :: rest => published (v.step event) rest

end Vol

/-- The volume as `agfs_read_superblock` leaves it: the probe buffer is released clean. -/
def afterMount (blk : Block0) (m : Mounted) : Vol where
  disk := blk
  cache size := if size = probeSize then some ⟨m.block0, false⟩ else none
  blockSize := (m.block0.a.words 10).toNat
  sbSeq := m.sbSeq

/-! ## What may change -/

/-- The words of `log_blocks`, `log_start` and `log_end`. -/
def inLogRange (j : Fin 33) : Bool := 22 ≤ j && j ≤ 27

/-- Equal in every word but those of the log range. -/
def SameBut (w w' : Words) : Prop := ∀ j, inLogRange j = false → w j = w' j

/-- The same, `flags` aside: the journal marks the volume dirty. -/
def SameButFlags (w w' : Words) : Prop := ∀ j, inLogRange j = false → j ≠ 21 → w j = w' j

instance (w w' : Words) : Decidable (SameBut w w') := by unfold SameBut; infer_instance

instance (w w' : Words) : Decidable (SameButFlags w w') := by unfold SameButFlags; infer_instance

/-- Whether the probe buffer is still there at the first publication. -/
def survives : List Event → Bool
  | [] => true
  | .publish _ :: _ => true
  | .evict size :: rest => size != probeSize && survives rest
  | _ :: rest => survives rest

/-- The flags of the publications of a run. -/
def flagsOf : List Event → List UInt32
  | [] => []
  | .publish fields :: rest => fields.flags :: flagsOf rest
  | _ :: rest => flagsOf rest

theorem SameButFlags.refl (w : Words) : SameButFlags w w := fun _ _ _ => rfl

theorem SameButFlags.symm {w w' : Words} (same : SameButFlags w w') : SameButFlags w' w :=
  fun j out other => (same j out other).symm

theorem SameButFlags.trans {w w' w'' : Words} (same : SameButFlags w w')
    (same' : SameButFlags w' w'') : SameButFlags w w'' :=
  fun j out other => (same j out other).trans (same' j out other)

theorem sameBut_iff (w w' : Words) : SameBut w w' ↔ SameButFlags w w' ∧ w 21 = w' 21 := by
  constructor
  · intro same
    exact ⟨fun j out _ => same j out, same 21 rfl⟩
  · rintro ⟨same, flags⟩ j out
    by_cases here : j = 21
    · rw [here, flags]
    · exact same j out here

open Vol

section Steps

variable {v : Vol} {c : Option Cached} {w : Words}

theorem publication_same (v : Vol) (fields : LogFields) :
    SameButFlags (v.publication fields) (v.read v.blockSize).a.words := by
  intro j out other
  have range : ∀ k : Fin 33, inLogRange k = true → j ≠ k := by
    rintro k inside rfl
    rw [inside] at out
    cases out
  simp [publication, SbWrite.fill, other, range 22 rfl, range 23 rfl, range 24 rfl,
    range 25 rfl, range 26 rfl, range 27 rfl]

theorem published_flags (events : List Event) :
    (v.published events).map (fun w => w 21) = flagsOf events := by
  induction events generalizing v with
  | nil => rfl
  | cons event rest ih =>
    cases event with
    | publish fields => exact congrArg (fields.flags :: ·) ih
    | bread size => exact ih
    | writeBack size => exact ih
    | evict size => exact ih

/-! ## After the first publication -/

/-- What the journal will read agrees with `w`, now and after any write-back or eviction. -/
structure Settled (w : Words) (v : Vol) : Prop where
  source : SameButFlags (v.read v.blockSize).a.words w
  clean : ∀ data, v.cache v.blockSize = some ⟨data, false⟩ → v.disk = data
  others : ∀ size data, size ≠ v.blockSize → v.cache size ≠ some ⟨data, true⟩

section

variable (settled : Settled w v)

include settled

/-- Buffers of other sizes do not matter, as long as they stay clean. -/
theorem Settled.elsewhere {size : Nat}
    (other : v.blockSize ≠ size) (notDirty : ∀ data, c ≠ some ⟨data, true⟩) :
    Settled w (v.setCache size c) where
  source := by
    have same : (v.setCache size c).read v.blockSize = v.read v.blockSize := by
      simp [Vol.read, Vol.setCache, other]
    exact same ▸ settled.source
  clean data cached := settled.clean data (by simpa [Vol.setCache, other] using cached)
  others size' data distinct := by
    by_cases here : size' = size
    · subst here
      simpa [Vol.setCache] using notDirty data
    · simpa [Vol.setCache, here] using settled.others size' data distinct

/-- The journal's own buffer, and the disk, change together. -/
theorem Settled.replace {disk : Block0}
    (seq : UInt64) (source : SameButFlags ((c.map Cached.data).getD disk).a.words w)
    (clean : ∀ data, c = some ⟨data, false⟩ → disk = data) :
    Settled w { v.setCache v.blockSize c with disk := disk, sbSeq := seq } where
  source := by simpa [Vol.read, Vol.setCache] using source
  clean data cached := clean data (by simpa [Vol.setCache] using cached)
  others size' data other := by
    have distinct : size' ≠ v.blockSize := other
    simpa [Vol.setCache, distinct] using settled.others size' data other

theorem Settled.source_eq (found : v.cache v.blockSize = c) :
    SameButFlags ((c.map Cached.data).getD v.disk).a.words w :=
  found ▸ settled.source

theorem step_settled (event : Event) : Settled w (v.step event) := by
  cases event with
  | bread size =>
    cases found : v.cache size with
    | some c => simpa only [step, found] using settled
    | none =>
      simp only [step, found]
      by_cases here : v.blockSize = size
      · subst here
        have same := settled.source_eq found
        exact settled.replace v.sbSeq same fun data cached => by
          cases cached
          rfl
      · exact settled.elsewhere here fun data cached => by cases cached
  | writeBack size =>
    rcases found : v.cache size with _ | ⟨data, _ | _⟩
    · simpa only [step, found] using settled
    · simpa only [step, found] using settled
    · have here : size = v.blockSize := by
        by_contra other
        exact settled.others size data other found
      subst here
      simp only [step, found]
      exact settled.replace v.sbSeq (settled.source_eq found) fun data' cached => by
        cases cached
        rfl
  | evict size =>
    rcases found : v.cache size with _ | ⟨data, _ | _⟩
    · simpa only [step, found] using settled
    · simp only [step, found]
      by_cases here : v.blockSize = size
      · subst here
        -- what was in the buffer is on the disk as well
        have same : SameButFlags v.disk.a.words w := by
          rw [settled.clean data found]
          exact settled.source_eq found
        exact settled.replace v.sbSeq same fun data' cached => by cases cached
      · exact settled.elsewhere here fun data' cached => by cases cached
    · simpa only [step, found] using settled
  | publish fields =>
    exact settled.replace (v.sbSeq + 1) ((publication_same v fields).trans settled.source)
      fun data cached => by cases cached

theorem published_settled (events : List Event) : ∀ x ∈ v.published events, SameButFlags x w := by
  induction events generalizing v with
  | nil =>
    intro x member
    cases member
  | cons event rest ih =>
    cases event with
    | publish fields =>
      intro x member
      rcases List.mem_cons.mp member with rfl | later
      · exact (publication_same v fields).trans settled.source
      · exact ih (step_settled settled _) x later
    | bread size | writeBack size | evict size => exact ih (step_settled settled _)

end

/-! ## Before it -/

/-- Nothing has been written since the mount; `kept` tells whether the probe buffer, with
the mirrored copy, is still cached. -/
structure Fresh (blk : Block0) (m : Mounted) (kept : Bool) (v : Vol) : Prop where
  disk : v.disk = blk
  blockSize : v.blockSize = (m.block0.a.words 10).toNat
  clean : ∀ size data, v.cache size ≠ some ⟨data, true⟩
  probe : kept = true → v.cache probeSize = some ⟨m.block0, false⟩
  plain : ∀ size c, v.cache size = some c → ¬ (size = probeSize ∧ kept = true) → c.data = blk

section Before

variable {blk : Block0} {m : Mounted} {kept : Bool}

theorem afterMount_fresh (blk : Block0) (m : Mounted) : Fresh blk m true (afterMount blk m) where
  disk := rfl
  blockSize := rfl
  clean size data := by by_cases here : size = probeSize <;> simp [afterMount, here]
  probe _ := by simp [afterMount]
  plain size c cached other := by
    have out : size ≠ probeSize := fun here => other ⟨here, rfl⟩
    simp [afterMount, out] at cached

variable (fresh : Fresh blk m kept v)

include fresh

theorem Fresh.read_eq :
    v.read v.blockSize =
      if v.blockSize = probeSize ∧ kept = true then m.block0 else blk := by
  split
  · rename_i both
    simp [Vol.read, both.1, fresh.probe both.2]
  · rename_i other
    cases found : v.cache v.blockSize with
    | none => simp [Vol.read, found, fresh.disk]
    | some c => simp [Vol.read, found, fresh.plain _ c found other]

/-- The first publication settles what all later ones are like. -/
theorem Fresh.settled (fields : LogFields) :
    Settled (v.publication fields) (v.step (.publish fields)) where
  source := by
    have same := SameButFlags.refl (v.publication fields)
    simpa [Vol.step, Vol.read, Vol.setCache, stampCopy] using same
  clean data cached := by simp [Vol.step, Vol.setCache] at cached
  others size data other := by
    have distinct : size ≠ v.blockSize := other
    simpa [Vol.step, Vol.setCache, distinct] using fresh.clean size data

theorem Fresh.bread (size : Nat) : Fresh blk m kept (v.step (.bread size)) := by
  cases found : v.cache size with
  | some c => simpa only [step, found] using fresh
  | none =>
    simp only [step, found]
    have notProbe : kept = true → size ≠ probeSize := by
      rintro here rfl
      rw [fresh.probe here] at found
      cases found
    refine ⟨fresh.disk, fresh.blockSize, ?_, ?_, ?_⟩
    · intro size' data
      by_cases here : size' = size
      · subst here
        simp [setCache]
      · simpa [setCache, here] using fresh.clean size' data
    · intro here
      simpa [setCache, (notProbe here).symm] using fresh.probe here
    · intro size' c cached other
      by_cases here : size' = size
      · subst here
        have same : c = ⟨v.disk, false⟩ := by simpa [setCache, eq_comm] using cached
        rw [same]
        exact fresh.disk
      · exact fresh.plain size' c (by simpa [setCache, here] using cached) other

theorem Fresh.writeBack (size : Nat) : v.step (.writeBack size) = v := by
  rcases found : v.cache size with _ | ⟨data, _ | _⟩
  · simp only [step, found]
  · simp only [step, found]
  · exact absurd found (fresh.clean size data)

theorem Fresh.evict (size : Nat) :
    Fresh blk m (size != probeSize && kept) (v.step (.evict size)) := by
  have less : Fresh blk m (size != probeSize && kept) (v.setCache size none) := by
    refine ⟨fresh.disk, fresh.blockSize, ?_, ?_, ?_⟩
    · intro size' data
      by_cases here : size' = size
      · subst here
        simp [setCache]
      · simpa [setCache, here] using fresh.clean size' data
    · intro both
      rw [Bool.and_eq_true, bne_iff_ne] at both
      simpa [setCache, both.1.symm] using fresh.probe both.2
    · intro size' c cached other
      by_cases here : size' = size
      · subst here
        simp [setCache] at cached
      · refine fresh.plain size' c (by simpa [setCache, here] using cached) ?_
        rintro ⟨rfl, stays⟩
        exact other ⟨rfl, by simp [stays, Ne.symm here]⟩
  rcases found : v.cache size with _ | ⟨data, _ | _⟩
  · -- nothing was cached, so setting it to nothing changes nothing
    have same : v.setCache size none = v := by rw [setCache, ← found, Function.update_eq_self]
    rw [same] at less
    simpa only [step, found] using less
  · simpa only [step, found] using less
  · exact absurd found (fresh.clean size data)

/-- Every publication of a run is like what the first one finds. -/
theorem Fresh.published_iff (mirrored : m.block0.a = blk.b) (events : List Event) :
    (∀ w ∈ v.published events, SameButFlags w blk.b.words) ↔
      flagsOf events = [] ∨ (v.blockSize = probeSize ∧ kept = true ∧ survives events = true) ∨
        SameButFlags blk.a.words blk.b.words := by
  induction events generalizing v kept with
  | nil => simp [published, flagsOf]
  | cons event rest ih =>
    cases event with
    | bread size =>
      have same : (v.step (.bread size)).blockSize = v.blockSize := by
        rw [(fresh.bread size).blockSize, fresh.blockSize]
      have := ih (fresh.bread size)
      rwa [same] at this
    | writeBack size =>
      have := ih (fresh.writeBack size ▸ fresh)
      simpa only [published, fresh.writeBack size, flagsOf, survives] using this
    | evict size =>
      have same : (v.step (.evict size)).blockSize = v.blockSize := by
        rw [(fresh.evict size).blockSize, fresh.blockSize]
      have := ih (fresh.evict size)
      rw [same] at this
      refine this.trans (or_congr Iff.rfl (or_congr ?_ Iff.rfl))
      simp only [survives, Bool.and_eq_true]
      tauto
    | publish fields =>
      have first := publication_same v fields
      have all : (∀ w ∈ v.published (.publish fields :: rest), SameButFlags w blk.b.words) ↔
          SameButFlags (v.read v.blockSize).a.words blk.b.words := by
        constructor
        · intro every
          exact first.symm.trans (every _ List.mem_cons_self)
        · intro source w member
          rcases List.mem_cons.mp member with rfl | later
          · exact first.trans source
          · exact ((published_settled (fresh.settled fields) rest w later).trans
              first).trans source
      rw [all, fresh.read_eq]
      simp only [flagsOf, reduceCtorEq, survives, and_true, false_or]
      by_cases both : v.blockSize = probeSize ∧ kept = true
      · rw [if_pos both, mirrored]
        exact iff_of_true (SameButFlags.refl _) (.inl both)
      · rw [if_neg both]
        exact (or_iff_right both).symm

end Before

end Steps

/-! ## The runs -/

/-- A mount that takes copy B carries its struct in copy A. -/
theorem mount_mirrors {blk : Block0} {m : Mounted} (torn : ¬ blk.a.Valid)
    (mounted : readSuperblock blk = .ok m) : m.block0.a = blk.b := by
  have best := scan_best blk
  by_cases valid : blk.b.Valid
  · rw [if_pos ⟨valid, fun validA => absurd validA torn⟩] at best
    exact (takes_of_best best).2 m mounted
  · rw [if_neg (fun both => valid both.1), if_neg torn] at best
    simp [readSuperblock, best] at mounted

/-- **When a recovered superblock persists.** After a mount from copy B because copy A was
invalid, over every run of reads, write-backs, evictions and publications: the published
structs are the recovered one up to the log range and `flags` iff nothing is published, or
the volume has 1024-byte blocks and the probe buffer is not evicted before the first
publication, or the torn copy differs nowhere else. Only the log range changes if moreover
every publication has the recovered `flags`. -/
theorem recovery_persists_iff {blk : Block0} {m : Mounted} (torn : ¬ blk.a.Valid)
    (mounted : readSuperblock blk = .ok m) (events : List Event) :
    ((∀ w ∈ (afterMount blk m).published events, SameButFlags w blk.b.words) ↔
      flagsOf events = [] ∨ ((blk.b.words 10).toNat = probeSize ∧ survives events = true) ∨
        SameButFlags blk.a.words blk.b.words) ∧
    ((∀ w ∈ (afterMount blk m).published events, SameBut w blk.b.words) ↔
      (flagsOf events = [] ∨ ((blk.b.words 10).toNat = probeSize ∧ survives events = true) ∨
        SameButFlags blk.a.words blk.b.words) ∧
        ∀ flags ∈ flagsOf events, flags = blk.b.words 21) := by
  have mirrored := mount_mirrors torn mounted
  have loose := (afterMount_fresh blk m).published_iff mirrored events
  have size : (afterMount blk m).blockSize = (blk.b.words 10).toNat := by
    simp only [afterMount, mirrored]
  rw [size] at loose
  simp only [true_and] at loose
  refine ⟨loose, ?_⟩
  rw [← loose, ← published_flags (v := afterMount blk m) events]
  simp only [sameBut_iff, forall_and, List.forall_mem_map]

/-! ## Poles -/

/-- `AGFS_SUPER_DIRTY`. -/
def SUPER_DIRTY : UInt32 := 0x44495254

/-- A volume that was in use, with blocks of the given size and copy A lost in a torn
write. -/
def tornBlock0 (blockSize : UInt32) : Block0 :=
  { a := ⟨fun _ => 0, 0, 0⟩
    b := stampCopy 0 fun j =>
      if j = 10 ∨ j = 16 then blockSize else if j = 21 then SUPER_DIRTY else plainWords j }

/-- What the mount makes of it. -/
def recovered (blockSize : UInt32) : Mounted :=
  { block0 := ⟨(tornBlock0 blockSize).b, (tornBlock0 blockSize).b⟩, sbSeq := 1 }

def firstFlush : LogFields := ⟨SUPER_DIRTY, (0, 0x00310002), (0, 0), (3, 0)⟩

theorem recovery_persists_iff_small :
    readSuperblock (tornBlock0 1024) = .ok (recovered 1024) ∧
      ∀ w ∈ (afterMount (tornBlock0 1024) (recovered 1024)).published
          [.bread 4096, .publish firstFlush, .writeBack 1024, .evict 1024, .publish firstFlush],
        SameBut w (tornBlock0 1024).b.words := by
  have mounts : readSuperblock (tornBlock0 1024) = .ok (recovered 1024) := by decide +kernel
  refine ⟨mounts, ((recovery_persists_iff (by decide +kernel) mounts _).2.mpr ⟨?_, ?_⟩)⟩
  · exact .inr (.inl ⟨rfl, rfl⟩)
  · have here : SUPER_DIRTY = (tornBlock0 1024).b.words 21 := by decide +kernel
    simpa [flagsOf, firstFlush] using here

/-- With larger blocks the first flush publishes the torn copy, over both sectors, and the
volume does not mount again. -/
theorem torn_copy_published :
    readSuperblock (tornBlock0 2048) = .ok (recovered 2048) ∧
      (∃ w ∈ (afterMount (tornBlock0 2048) (recovered 2048)).published [.publish firstFlush],
        ¬ SameButFlags w (tornBlock0 2048).b.words) ∧
      readSuperblock ((afterMount (tornBlock0 2048) (recovered 2048)).run
        [.publish firstFlush, .writeBack 2048]).disk = .error (-EINVAL) := by
  refine ⟨by decide +kernel, ⟨_, List.mem_cons_self, ?_⟩, by decide +kernel⟩
  intro same
  exact absurd (same 8 rfl (by decide)) (by decide +kernel)

end Argentum.Agfs.SuperRecovery
