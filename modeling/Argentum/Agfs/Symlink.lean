/-
# Agfs.Symlink — the target of a symbolic link

`agfs_symlink` keeps a target of at most 143 characters in the inode, in the 144 bytes where other
inodes have the runs of their stream, and a longer one in the stream. The last eight of these bytes
are `data.size`, and `agfs_symlink` writes the length there, over the target; `agfs_write_inode`
takes care not to. `agfs_followlink` has room for 1024 characters, `sys_symlink` lets 4095 pass.
`symlink_round_trip_iff` says which targets come back, from memory and from the disk.
-/
import Mathlib.Data.List.TakeDrop
import Mathlib.Data.List.TakeWhile
import Argentum.Agfs.Query.Equation

namespace Argentum.Agfs.Symlink

open List
open Agfs.Query (load store load_store)

/-! ## The calls -/

/-- The fields of an inode that a symbolic link uses, in memory or on disk. -/
structure Node where
  /-- `i_size`. -/
  size : Nat
  /-- `AGFS_INODE_LONG_SYMLINK`. -/
  long : Bool
  /-- `pad[0]`. -/
  pad : Nat
  /-- `u.symlink`. -/
  area : Bytes
  stream : Bytes

/-- `PATH_MAX`. -/
def pathMax : Nat := 1024

/-- `u.data.size = n`. -/
def setDataSize (area : Bytes) (n : Nat) : Bytes := area.take 136 ++ store 8 n

/-- `u.data.size`. -/
def dataSize (area : Bytes) : Nat := load (area.drop 136)

section Calls

variable (blksize : Nat) (i : Node)

/-- The bytes of one turn: to the end of the block, or to the last one. -/
def chunk (count offset : Nat) : Nat := min (blksize - offset % blksize) (count - offset)

/-- The writing loop of `agfs_symlink`. -/
def writeStream (target : Bytes) : Nat → Nat → Bytes → Bytes
  | 0, _, stream => stream
  | fuel + 1, offset, stream =>
    if offset < target.length then
      let bytes := chunk blksize target.length offset
      writeStream target fuel (offset + bytes)
        (stream.take offset ++ (target.drop offset).take bytes ++ stream.drop (offset + bytes))
    else stream

/-- The loop of `agfs_read_symlink_stream`. -/
def readStream (stream : Bytes) (count : Nat) : Nat → Bytes → Bytes
  | 0, buffer => buffer
  | fuel + 1, buffer =>
    if buffer.length < count then
      readStream stream count fuel
        (buffer ++ (stream.drop buffer.length).take (chunk blksize count buffer.length))
    else buffer

def readSymlinkStream (count : Nat) : Bytes :=
  readStream blksize i.stream (min count i.size) (min count i.size) []

/-- `agfs_symlink`, once the new inode has been entered in the directory. -/
def symlink (oldname : Bytes) : Node :=
  let len := oldname.length
  if len ≤ 143 then
    { i with
      area := setDataSize (oldname ++ 0 :: i.area.drop (len + 1)) len
      pad := len
      size := len }
  else
    { i with
      long := true
      stream := writeStream blksize oldname len 0 i.stream
      area := setDataSize i.area len
      pad := len
      size := len }

/-- `agfs_write_inode`. -/
def writeInode : Node :=
  { i with pad := i.size, area := if 143 < i.size then setDataSize i.area i.size else i.area }

/-- `agfs_read_inode`. -/
def readInode : Node :=
  { i with
    size := if i.long then dataSize i.area
      else if i.pad ≠ 0 then i.pad
      else ((i.area.take 143).takeWhile (· ≠ 0)).length }

/-- `agfs_readlink`: the length and the bytes. -/
def readlink (count : Nat) : Nat × Bytes :=
  if 143 < i.size then
    let bytes := readSymlinkStream blksize i count
    (bytes.length, bytes)
  else (min (min count i.size) 143, i.area.take (min (min count i.size) 143))

/-- `agfs_followlink`: the string that it hands to `parse_namei`. -/
def followlink : Bytes :=
  if 143 < i.size then (readSymlinkStream blksize i pathMax).takeWhile (· ≠ 0)
  else (i.area.take 143).takeWhile (· ≠ 0)

/-- The link gives its target back. -/
def RoundTrip (target : Bytes) : Prop :=
  (∀ count, target.length ≤ count → readlink blksize i count = (target.length, target)) ∧
    followlink blksize i = target

end Calls

/-- Targets that neither reach the bytes of `data.size` nor are too long to be followed. The
length 137 is the one that can be the missing character. -/
def Kept (target : Bytes) : Prop :=
  target.length ≤ 135 ∨ (target.length = 137 ∧ target[136]? = some 137) ∨
    (144 ≤ target.length ∧ target.length ≤ pathMax)

/-! ## Streams -/

section Streams

variable {blksize : Nat} {target stream : Bytes} {count fuel offset : Nat}

variable (blocks : 0 < blksize)

include blocks

theorem chunk_pos (more : offset < count) :
    0 < chunk blksize count offset ∧ offset + chunk blksize count offset ≤ count := by
  have inside := Nat.mod_lt offset blocks
  unfold chunk
  omega

theorem writeStream_eq (enough : target.length ≤ offset + fuel) (inside : offset ≤ target.length)
    (done : stream.take offset = target.take offset) :
    (writeStream blksize target fuel offset stream).take target.length = target := by
  induction fuel generalizing offset stream with
  | zero =>
    obtain rfl : offset = target.length := by omega
    rw [writeStream, done, take_length]
  | succ fuel ih =>
    rw [writeStream]
    split
    · rename_i more
      obtain ⟨positive, within⟩ := chunk_pos blocks more
      refine ih (by omega) within ?_
      rw [done, ← take_add, take_append_of_le_length (by simp; omega), take_take, Nat.min_self]
    · obtain rfl : offset = target.length := by omega
      rw [done, take_length]

theorem readStream_eq {done : Nat}
    (enough : count ≤ done + fuel) (inside : done ≤ count) (long : count ≤ stream.length) :
    readStream blksize stream count fuel (stream.take done) = stream.take count := by
  have length : (stream.take done).length = done := by simp; omega
  induction fuel generalizing done with
  | zero =>
    obtain rfl : done = count := by omega
    rfl
  | succ fuel ih =>
    rw [readStream, length]
    split
    · rename_i more
      obtain ⟨positive, within⟩ := chunk_pos blocks more
      rw [← take_add]
      exact ih (by omega) within (by simp; omega)
    · obtain rfl : done = count := by omega
      rfl

end Streams

/-! ## Targets that come back -/

section Targets

variable {blksize : Nat} {i : Node} {target : Bytes}

theorem store_size {n : Nat} (small : n < 256) : store 8 n = UInt8.ofNat n :: replicate 7 0 := by
  simp [store, Nat.div_eq_of_lt small, Nat.mod_eq_of_lt small]

/-- The target and its terminator lie before `data.size`. -/
theorem area_short (short : target.length ≤ 135) (rest : Bytes) :
    ∃ more, setDataSize (target ++ 0 :: rest) target.length = target ++ 0 :: more := by
  rw [setDataSize, take_append, take_of_length_le (by omega),
    show 136 - target.length = 135 - target.length + 1 by omega]
  simp

/-- The length stands in the place of the character 136, and zeros behind it. -/
theorem area_long (long : 136 ≤ target.length) (few : target.length < 256) (rest : Bytes) :
    setDataSize (target ++ 0 :: rest) target.length =
      target.take 136 ++ UInt8.ofNat target.length :: replicate 7 0 := by
  rw [setDataSize, take_append_of_le_length long, store_size few]

theorem takeWhile_target (plain : 0 ∉ target) (rest : Bytes) :
    (target ++ 0 :: rest).takeWhile (· ≠ 0) = target := by
  rw [takeWhile_append_of_pos]
  · simp
  · intro b member
    simpa using ne_of_mem_of_not_mem member plain

theorem roundTrip_short (plain : 0 ∉ target) (small : i.size = target.length)
    (fast : target.length ≤ 143) (rest : Bytes)
    (area : i.area = setDataSize (target ++ 0 :: rest) target.length) :
    RoundTrip blksize i target ↔
      target.length ≤ 135 ∨ (target.length = 137 ∧ target[136]? = some 137) := by
  have read : ∀ count, target.length ≤ count → min (min count i.size) 143 = target.length := by
    omega
  have notLong : ¬ 143 < i.size := by omega
  by_cases short : target.length ≤ 135
  · obtain ⟨more, same⟩ := area_short short rest
    refine iff_of_true ⟨fun count all => ?_, ?_⟩ (.inl short)
    · rw [readlink, if_neg notLong, read count all, area, same, take_left]
    · rw [followlink, if_neg notLong, area, same, take_append,
        take_of_length_le (by omega),
        show 143 - target.length = 142 - target.length + 1 by omega, take_succ_cons,
        takeWhile_target plain]
  · have same : setDataSize (target ++ 0 :: rest) target.length = _ :=
      area_long (by omega) (by omega) rest
    have follow : followlink blksize i = target.take 136 ++ [UInt8.ofNat target.length] := by
      rw [followlink, if_neg notLong, area, same, take_append, takeWhile_append_of_pos]
      · have some : UInt8.ofNat target.length ≠ 0 := by
          rw [← UInt8.toNat_inj.ne]
          simp
          omega
        simp [some, show min 136 target.length = 136 by omega]
      · intro b member
        have inside := mem_of_mem_take (mem_of_mem_take member)
        simpa using ne_of_mem_of_not_mem inside plain
    have last : target.length = 137 → target.take 136 ++ target[136]?.toList = target := by
      intro length
      rw [← take_add_one, take_of_length_le (by omega)]
    constructor
    · rintro ⟨-, found⟩
      rw [follow] at found
      have length := congrArg length found
      simp only [length_append, length_take, length_singleton] at length
      have is137 : target.length = 137 := by omega
      rw [← found]
      simp [is137]
    · rintro (tooShort | ⟨is137, at136⟩)
      · exact absurd tooShort short
      rw [at136] at last
      refine ⟨fun count all => ?_, ?_⟩
      · rw [readlink, if_neg notLong, read count all, area, same, take_append, length_take,
          take_of_length_le (length_take_le' ..), is137]
        exact congrArg (Prod.mk 137) (last is137)
      · rw [follow, is137]
        exact last is137

theorem roundTrip_long (blocks : 0 < blksize) (plain : 0 ∉ target) (size : i.size = target.length)
    (slow : 143 < target.length) (stream : i.stream.take target.length = target) :
    RoundTrip blksize i target ↔ target.length ≤ pathMax := by
  have whole : target.length ≤ i.stream.length := by
    have := congrArg length stream
    simp only [length_take] at this
    omega
  have read : ∀ count, readSymlinkStream blksize i count = target.take count := by
    intro count
    rw [readSymlinkStream, size]
    rw [show [] = i.stream.take 0 from rfl, readStream_eq blocks (by omega) (by omega) (by omega)]
    conv_rhs => rw [← stream, take_take]
  have follow : followlink blksize i = target.take pathMax := by
    rw [followlink, if_pos (by omega), read, takeWhile_eq_self_iff]
    intro b member
    simpa using ne_of_mem_of_not_mem (mem_of_mem_take member) plain
  rw [RoundTrip, follow, take_eq_self_iff target]
  refine and_iff_right fun count all => ?_
  rw [readlink, if_pos (by omega), read, take_of_length_le all]

/-- **Which targets come back.** A link gives its target back, before and after its inode has been
to the disk, exactly when the target is `Kept`. -/
theorem symlink_round_trip_iff (blocks : 0 < blksize) (plain : 0 ∉ target) (some : target ≠ [])
    (accepted : target.length < 4096) (fresh : i.area.length = 144 ∧ i.long = false) :
    (RoundTrip blksize (symlink blksize i target) target ∧
      RoundTrip blksize (readInode (writeInode (symlink blksize i target))) target) ↔
        Kept target := by
  obtain ⟨room, fast⟩ := fresh
  by_cases short : target.length ≤ 143
  · have positive := length_pos_iff.mpr some
    have made : ∀ node, node.size = target.length →
        node.area = (symlink blksize i target).area →
          (RoundTrip blksize node target ↔ Kept target) := by
      intro node size area
      rw [roundTrip_short plain size short _ (area.trans (by rw [symlink, if_pos short]))]
      simp [Kept, show ¬ 144 ≤ target.length by omega, false_and, or_false]
    rw [made _ (by rw [symlink, if_pos short]) rfl, made _ ?_ ?_, and_self]
    · rw [readInode, writeInode, symlink, if_pos short]
      simp [fast, Nat.pos_iff_ne_zero.mp positive]
    · rw [symlink, if_pos short]
      exact if_neg (by simpa using short)
  · have made : ∀ node, node.size = target.length →
        node.stream = (symlink blksize i target).stream →
          (RoundTrip blksize node target ↔ Kept target) := by
      intro node size stream
      rw [symlink, if_neg short] at stream
      rw [roundTrip_long blocks plain size (by omega)
        (by rw [stream]; exact writeStream_eq blocks (by omega) (by omega) rfl)]
      simp [Kept, show ¬ target.length ≤ 135 by omega, show target.length ≠ 137 by omega,
        show 144 ≤ target.length by omega, false_and, true_and, false_or]
    rw [made _ (by rw [symlink, if_neg short]) rfl, made _ ?_ ?_, and_self]
    · rw [readInode, writeInode, symlink, if_neg short]
      simp only [if_true, if_pos (show 143 < target.length by omega), dataSize, setDataSize]
      rw [drop_left' (by simp [room]), load_store]
      omega
    · rfl

end Targets

/-! ## Poles -/

/-- An inode as `agfs_ialloc` clears it. -/
def blank : Node := ⟨0, false, 0, replicate 144 0, []⟩

theorem symlink_round_trip_iff_135 :
    RoundTrip 2048 (readInode (writeInode (symlink 2048 blank (replicate 135 97))))
      (replicate 135 97) :=
  ((symlink_round_trip_iff (i := blank) (by decide) (by simp) (by simp) (by simp)
    ⟨by simp [blank], rfl⟩).mpr (.inl (by simp))).2

/-- Of 138 characters, the last two are lost. -/
theorem symlink_overwritten :
    ¬ RoundTrip 2048 (symlink 2048 blank (replicate 138 97)) (replicate 138 97) := by
  have short : (replicate 138 (97 : UInt8)).length ≤ 143 := by simp
  rw [symlink, if_pos short, roundTrip_short (by simp) rfl short _ rfl]
  simp

end Argentum.Agfs.Symlink
