/-
# Agfs.FileContent — what a regular file reads back

A small file is inline: its bytes stand in the tail of the inode, from `base` on
(`agfs_inline_base`). Any other file has its bytes in the disk blocks that its stream
(`Agfs.Stream`) maps; reads go through the page cache.

A page is filled block by block, a block that is not mapped reads as zeros, and a page may
leave the cache at any time. An operation that fails is no step. Beside the file stands
`content`, what its bytes ought to be.

`reads_content` says that reads return it, as long as no operation reaches a place where
the code neither writes nor zeroes a byte that becomes part of the file, or puts it into
the wrong block (`SafeLabel`): a byte between the old size and the new one is shown as it
was kept; a block that is mapped is not zeroed; `agfs_bmap` returns the first block of a
window for any block of it. The last is `sparse_write_lost`.
-/
import Argentum.Lib.ByteMap
import Argentum.Agfs.Ownership
import Argentum.Agfs.StreamCut

namespace Argentum.Agfs.FileContent

open Lib.ByteMap Lib.Machine List Function
open Agfs.Ownership (inlineMax)

/-! ## The file -/

/-- `PAGE_SIZE`. -/
def pageSize : Nat := 4096

/-- `sizeof(struct agfs_inode)`. -/
def inodeSize : Nat := 232

/-- A regular file, with the disk and the pages that are cached for it. -/
structure File where
  space : Space
  stream : Stream
  /-- `i_size`. -/
  size : Nat
  /-- `AGFS_INODE_INLINE_DATA`. -/
  isInline : Bool
  /-- The bytes of `small_data` from `agfs_inline_base` on. -/
  tail : Nat → UInt8
  disk : Nat → Nat → UInt8
  /-- The cached pages of the file. -/
  pages : Nat → Option (Nat → UInt8)

def File.work (s : File) : Work := ⟨s.space, s.stream⟩

/-- `memset_b` of the bytes from `low` to `high` with zeros. -/
def zeroed (g : Nat → UInt8) (low high : Nat) : Nat → UInt8 := fun p =>
  if low ≤ p ∧ p < high then 0 else g p

section Calls

variable (f : Format) (base : Nat)

variable (s : File) (off : Nat) (data : Bytes)

/-- Byte `p` of the stream: in its block, or zero if the block is not mapped. -/
def rawByte (p : Nat) : UInt8 :=
  match bmapRead f s.stream (p / f.blockSize) with
  | some b => s.disk b (p % f.blockSize)
  | none => 0

/-- `bread_page`. -/
def breadPage (k : Nat) : Nat → UInt8 := fun o => rawByte f s (k * pageSize + o)

/-- `update_page_cache`: the bytes up to the end of the page, if it is cached. -/
def updatePages (pages : Nat → Option (Nat → UInt8)) (off : Nat) (bytes : Bytes) :
    Nat → Option (Nat → UInt8) :=
  match pages (off / pageSize) with
  | none => pages
  | some page => update pages (off / pageSize)
      (some (put page (off % pageSize) (bytes.take (pageSize - off % pageSize))))

/-- One round of the write loop: the bytes go into one block. -/
def writeChunk (bytes : Bytes) : Option File :=
  match bmapWrite f s.work (off / f.blockSize) with
  | (.error _, _) => none
  | (.ok b, w) => some
      { s with
        space := w.space
        stream := w.stream
        disk := update s.disk b (put (s.disk b) (off % f.blockSize) bytes)
        pages := updatePages s.pages off bytes }

/-- The write loop of `agfs_file_write` and `agfs_inline_expand`, block by block. Every round
takes a byte at least. -/
def writeLoop : Nat → File → Nat → Bytes → Option File
  | _, s, _, [] => some s
  | 0, _, _, _ :: _ => none
  | fuel + 1, s, off, b :: data =>
    let n := min (f.blockSize - off % f.blockSize) (b :: data).length
    (writeChunk f s off ((b :: data).take n)).bind fun s =>
      writeLoop fuel s (off + n) ((b :: data).drop n)

/-- `agfs_inline_expand`. -/
def inlineExpand : Option File :=
  (writeLoop f s.size s 0 ((List.range s.size).map s.tail)).map fun s => { s with isInline := false }

/-- `agfs_inline_write`. -/
def inlineWrite : File :=
  let newsize := max s.size (off + data.length)
  let gap := if s.size < off then zeroed s.tail s.size off else s.tail
  let written := put gap off data
  { s with
    tail := if base + newsize < inlineMax then
      zeroed written newsize (f.blockSize - inodeSize - base) else written
    size := newsize
    isInline := true }

/-- The part of `agfs_file_write` behind the inline cases. -/
def streamWrite : Option File :=
  (writeLoop f data.length s off data).map fun s =>
    { s with size := max s.size (off + data.length) }

/-- `agfs_file_write` at offset `off`. -/
def fileWrite : Option File :=
  if data ≠ [] ∧ s.isInline then
    if off + data.length ≤ inlineMax then some (inlineWrite f base s off data)
    else (inlineExpand f s).bind fun s => streamWrite f s off data
  else if data ≠ [] ∧ s.size = 0 ∧ off = 0 ∧ data.length ≤ inlineMax then
    some (inlineWrite f base s 0 data)
  else streamWrite f s off data

/-- The rounds of `file_read`, page by page. -/
def readLoop : Nat → File → Nat → Nat → Bytes × File
  | 0, s, _, _ => ([], s)
  | fuel + 1, s, off, count =>
    let count := min count (s.size - off)
    if count = 0 then ([], s)
    else
      let k := off / pageSize
      let page := (s.pages k).getD (breadPage f s k)
      let n := min (pageSize - off % pageSize) count
      let later := readLoop fuel { s with pages := update s.pages k (some page) }
        (off + n) (count - n)
      ((List.range' (off % pageSize) n).map page ++ later.1, later.2)

/-- `agfs_file_read` at offset `off`. -/
def fileRead (off count : Nat) : Bytes × File :=
  if s.isInline then
    if s.size ≤ off then ([], s)
    else ((List.range' off (min count (s.size - off))).map s.tail, s)
  else readLoop f count s (min off s.size) count

/-- The stream part of `agfs_truncate`. -/
def cutFile (length : Nat) : File :=
  let cut := truncateStream f s.stream length
  { s with space := bfreeAll f s.space cut.2, stream := cut.1, size := length }

/-- `agfs_truncate`. -/
def truncate (length : Nat) : Option File :=
  if s.isInline then
    if length ≤ inlineMax then
      some { s with
        tail := if length < s.size then zeroed s.tail length s.size else s.tail
        size := length }
    else (inlineExpand f s).map fun s => cutFile f s length
  else some (cutFile f s length)

/-- `agfs_trim_prealloc`. -/
def trimPrealloc : File :=
  if s.size = 0 ∨ s.isInline then s
  else
    let cut := trimStream f s.stream s.size
    { s with space := bfreeAll f s.space cut.2, stream := cut.1 }

end Calls

/-! ## The machine -/

inductive Label where
  | write (off : Nat) (data : Bytes)
  | truncate (length : Nat)
  | read (off count : Nat)
  /-- `agfs_trim_prealloc`, when the inode is written. -/
  | trim
  /-- A page leaves the cache. -/
  | evict (k : Nat)

structure Sys where
  file : File
  /-- What the bytes of the file ought to be. -/
  content : Nat → UInt8

section Step

variable (f : Format) (base : Nat)

/-- Sizes and offsets are `__off_t`, 32 bits wide. -/
def step (x : Sys) : Label → Option Sys
  | .write off data =>
    if off + data.length < 2 ^ 32 then
      (fileWrite f base x.file off data).map fun s => ⟨s, put x.content off data⟩
    else none
  | .truncate length =>
    if length < 2 ^ 32 then
      (truncate f x.file length).map fun s => ⟨s, fun p => if p < length then x.content p else 0⟩
    else none
  | .read off count => some ⟨(fileRead f x.file off count).2, x.content⟩
  | .trim => some ⟨trimPrealloc f x.file, x.content⟩
  | .evict k => some ⟨{ x.file with pages := update x.file.pages k none }, x.content⟩

/-- Every read returns the content, up to the size. -/
def ReadsContent (x : Sys) : Prop :=
  ∀ off count, (fileRead f x.file off count).1 =
    (List.range' off (min count (x.file.size - off))).map x.content

/-- A file that was just created, on a volume whose superblock is marked. -/
structure Created (x : Sys) : Prop where
  stream : x.file.stream = .empty
  size : x.file.size = 0
  isInline : x.file.isInline = false
  super : f.used x.file.space 0 = true
  content : ∀ p, x.content p = 0

/-! ## The condition -/

/-- Byte `p` of a stream file is `v` in its block and in its page, if that is cached. -/
def Holds (s : File) (p : Nat) (v : UInt8) : Prop :=
  rawByte f s p = v ∧ ∀ page, s.pages (p / pageSize) = some page → page (p % pageSize) = v

/-- Byte `p` is zero where the file keeps it. -/
def KeptZero (s : File) (p : Nat) : Prop :=
  if s.isInline then s.tail p = 0 else Holds f s p 0

/-- A byte that is part of the file after the write and that the write does not write. -/
def Shows (size off n p : Nat) : Prop := (p < size ∨ p < off) ∧ ¬ (off ≤ p ∧ p < off + n)

/-- The call of `agfs_bmap` for one block of a write: it extends no run past the 16 bits of its
length; the direct runs grow only for the first block that they do not reach; and where a block
has to be mapped, no byte in the blocks that become mapped is shown and not written. -/
structure ChunkSafe (shows : Nat → Prop) (w : Work) (block : Nat) : Prop where
  unwrapped : BmapSafe f Unwrapped w block
  next : Reaches f w.stream block
  hidden : bmapRead f w.stream block = none → ∀ p, shows p →
    ¬ (block ≤ p / f.blockSize ∧ p / f.blockSize < block + opened f w)

/-- So for each block of the loop. -/
def LoopSafe (shows : Nat → Prop) : Nat → File → Nat → Bytes → Prop
  | _, _, _, [] => True
  | 0, _, _, _ :: _ => True
  | fuel + 1, s, off, b :: data =>
    let n := min (f.blockSize - off % f.blockSize) (b :: data).length
    ChunkSafe f shows s.work (off / f.blockSize) ∧
      ∀ s', writeChunk f s off ((b :: data).take n) = some s' →
        LoopSafe shows fuel s' (off + n) ((b :: data).drop n)

/-- A file that becomes a stream is not written behind its end. -/
def ExpandSafe (s : File) (off : Nat) (data : Bytes) : Prop :=
  off ≤ s.size ∧
    LoopSafe f (fun _ => False) s.size s 0 ((List.range s.size).map s.tail) ∧
    ∀ s', inlineExpand f s = some s' →
      LoopSafe f (Shows s.size off data.length) data.length s' off data

/-- The bytes behind the end of the file that the operation makes part of it are zero where they
are kept, and the calls of `agfs_bmap` are safe. -/
def SafeLabel (s : File) : Label → Prop
  | .write off data =>
    if data ≠ [] ∧ s.isInline then
      inlineMax < off + data.length → ExpandSafe f s off data
    else if data ≠ [] ∧ s.size = 0 ∧ off = 0 ∧ data.length ≤ inlineMax then True
    else (∀ p, s.size ≤ p → p < off → KeptZero f s p) ∧
      LoopSafe f (Shows s.size off data.length) data.length s off data
  | .truncate length =>
    if s.isInline ∧ inlineMax < length then
      s.size = 0 ∧ ∀ p, p < length → Holds f s p 0
    else ∀ p, s.size ≤ p → p < length → KeptZero f s p
  | _ => True

end Step

/-! ## The write loop -/

section Loop

variable {f : Format} {s s' : File} {shows : Nat → Prop} {off : Nat} {data : Bytes}

/-- The file's block of byte `p` is mapped. -/
def Mapped (f : Format) (s : File) (p : Nat) : Prop :=
  bmapRead f s.stream (p / f.blockSize) ≠ none

/-- What a write of `data` at `off` did: nothing to the inode, and to the bytes of the stream
what it should, wherever they are written, or were held and mapped or shown. -/
structure Wrote (f : Format) (shows : Nat → Prop) (s : File) (off : Nat) (data : Bytes)
    (s' : File) : Prop where
  shape : Shape f s'.stream
  fits : Fits f (fun _ => True) (· = 0) s'.work
  inode : s'.size = s.size ∧ s'.isInline = s.isInline ∧ s'.tail = s.tail
  tables : s'.stream.tables ≠ [] →
    s.stream.tables ≠ [] ∧ s'.stream.maxDirectRange = s.stream.maxDirectRange ∨
      s'.stream.maxDirectRange * f.blockSize ≤ off + data.length
  mapped : ∀ p, Mapped f s p → Mapped f s' p
  written : ∀ p, off ≤ p → p < off + data.length → Mapped f s' p
  holds : ∀ (c : Nat → UInt8) p, p < 2 ^ 32 →
    (off ≤ p ∧ p < off + data.length) ∨ (Holds f s p (c p) ∧ (Mapped f s p ∨ shows p)) →
      Holds f s' p (put c off data p)

theorem Wrote.nil (shape : Shape f s.stream) (fits : Fits f (fun _ => True) (· = 0) s.work) :
    Wrote f shows s off [] s where
  shape := shape
  fits := fits
  inode := ⟨rfl, rfl, rfl⟩
  tables some := .inl ⟨some, rfl⟩
  mapped p mapped := mapped
  written p low high := by simp at high; omega
  holds c p small known := by
    rw [put_nil]
    rcases known with inside | held
    · simp at inside
      omega
    · exact held.1

theorem Wrote.append {s₁ s₂ : File} {xs ys : Bytes} (first : Wrote f shows s off xs s₁)
    (second : Wrote f shows s₁ (off + xs.length) ys s₂) : Wrote f shows s off (xs ++ ys) s₂ where
  shape := second.shape
  fits := second.fits
  inode := ⟨second.inode.1.trans first.inode.1, second.inode.2.1.trans first.inode.2.1,
    second.inode.2.2.trans first.inode.2.2⟩
  tables some := by
    rw [length_append]
    rcases second.tables some with ⟨before, range⟩ | range
    · rcases first.tables before with ⟨start, range'⟩ | range'
      · exact .inl ⟨start, range.trans range'⟩
      · rw [range]
        exact .inr (by omega)
    · exact .inr (by omega)
  mapped p mapped := second.mapped p (first.mapped p mapped)
  written p low high := by
    rw [length_append] at high
    by_cases early : p < off + xs.length
    · exact second.mapped p (first.written p low early)
    · exact second.written p (by omega) (by omega)
  holds c p small known := by
    rw [← put_append]
    rw [length_append] at known
    refine second.holds _ p small ?_
    by_cases late : off + xs.length ≤ p ∧ p < off + xs.length + ys.length
    · exact .inl late
    right
    by_cases early : off ≤ p ∧ p < off + xs.length
    · exact ⟨first.holds c p small (.inl early), .inl (first.written p early.1 early.2)⟩
    · rcases known with inside | ⟨held, seen⟩
      · omega
      · exact ⟨first.holds c p small (.inr ⟨held, seen⟩), seen.imp_left (first.mapped p)⟩

/-- A part of a block is a part of a page. -/
theorem page_of_block (pages : f.bits ≤ 12) {n : Nat} (fits : off % f.blockSize + n ≤ f.blockSize) :
    off % pageSize + n ≤ pageSize := by
  have pos := blockSize_pos f
  obtain ⟨q, whole⟩ : f.blockSize ∣ pageSize := Nat.pow_dvd_pow 2 pages
  have low : off % pageSize < pageSize := Nat.mod_lt _ (by decide)
  have inner := Nat.mod_mod_of_dvd off ⟨q, whole⟩
  have parts := Nat.div_add_mod (off % pageSize) f.blockSize
  have below : off % pageSize / f.blockSize < q := by
    rw [Nat.div_lt_iff_lt_mul pos, Nat.mul_comm, ← whole]
    exact low
  have scaled := Nat.mul_le_mul_left f.blockSize (Nat.succ_le_of_lt below)
  rw [Nat.mul_succ] at scaled
  omega

theorem updatePages_at (pages : Nat → Option (Nat → UInt8))
    (fits : off % pageSize + data.length ≤ pageSize) {p : Nat} {page' : Nat → UInt8}
    (cached : updatePages pages off data (p / pageSize) = some page') :
    ∃ page, pages (p / pageSize) = some page ∧
      page' (p % pageSize) = put (fun q => page (q % pageSize)) off data p := by
  have whole : data.take (pageSize - off % pageSize) = data :=
    take_of_length_le (by omega)
  rw [updatePages, whole] at cached
  cases present : pages (off / pageSize) with
  | none =>
    rw [present] at cached
    simp only at cached
    have other : p / pageSize ≠ off / pageSize := by
      intro same
      rw [same, present] at cached
      cases cached
    refine ⟨page', cached, ?_⟩
    rw [put_other_cell _ fits other]
  | some page =>
    rw [present] at cached
    by_cases same : p / pageSize = off / pageSize
    · simp only [same, update_self] at cached
      cases cached
      exact ⟨page, same ▸ present, put_cell page data same⟩
    · simp only [update_of_ne same] at cached
      refine ⟨page', cached, ?_⟩
      rw [put_other_cell _ fits same]

variable (pages : f.bits ≤ 12) (shape : Shape f s.stream)
  (fits : Fits f (fun _ => True) (· = 0) s.work)

include pages shape fits

theorem writeChunk_wrote (inBlock : off % f.blockSize + data.length ≤ f.blockSize)
    (bound : off + data.length < 2 ^ 32) (safe : ChunkSafe f shows s.work (off / f.blockSize))
    (done : writeChunk f s off data = some s') : Wrote f shows s off data s' := by
  have block_lt : ∀ {p}, p < 2 ^ 32 → p / f.blockSize < 2 ^ 32 := fun small =>
    Nat.lt_of_le_of_lt (Nat.div_le_self _ _) small
  have here_lt : off / f.blockSize < 2 ^ 32 := block_lt (by omega)
  have cell : ∀ {p}, off ≤ p → p < off + data.length → p / f.blockSize = off / f.blockSize := by
    intro p low high
    by_contra other
    have atOff := Nat.div_add_mod off f.blockSize
    refine other (Nat.div_eq_of_lt_le ?_ ?_)
    · rw [Nat.mul_comm]
      omega
    · rw [Nat.add_mul, Nat.mul_comm]
      omega
  rcases mapped : bmapWrite f s.work (off / f.blockSize) with ⟨_ | b, w⟩
  · rw [writeChunk, mapped] at done
    cases done
  · rw [writeChunk, mapped] at done
    cases done
    have grown := bmapWrite_grown shape fits rfl here_lt safe.unwrapped safe.next mapped
    have fits' := bmapWrite_fits unwrapped_keeps fits safe.unwrapped
    rw [mapped] at fits'
    refine ⟨grown.shape, fits', ⟨rfl, rfl, rfl⟩, fun some => ?_, fun p was => ?_,
      fun p low high => ?_, fun c p small known => ⟨?_, fun page' cached => ?_⟩⟩
    · refine (grown.tables some).imp_right fun range => ?_
      have scaled := Nat.mul_le_mul_right f.blockSize range
      have low := Nat.div_mul_le_self off f.blockSize
      exact Nat.le_trans (Nat.le_trans scaled low) (Nat.le_add_right _ _)
    · obtain ⟨b', before⟩ := Option.ne_none_iff_exists'.mp was
      exact Option.ne_none_iff_exists'.mpr ⟨b', grown.keeps _ _ before⟩
    · refine Option.ne_none_iff_exists'.mpr ⟨b, ?_⟩
      rw [cell low high]
      exact grown.here
    · -- in its block
      show (match bmapRead f w.stream (p / f.blockSize) with
        | some d => update s.disk b (put (s.disk b) (off % f.blockSize) data) d
            (p % f.blockSize)
        | none => 0) = put c off data p
      by_cases same : p / f.blockSize = off / f.blockSize
      · rw [same, grown.here]
        simp only [update_self]
        rw [put_cell (s.disk b) data same]
        refine put_congr fun inside => ?_
        obtain ⟨held, seen⟩ := known.resolve_left inside
        -- the byte was in this block before
        cases before : bmapRead f s.stream (off / f.blockSize) with
        | some d =>
          have stays := grown.keeps _ _ before
          rw [grown.here] at stays
          cases stays
          have raw := held.1
          rw [rawByte, same, before] at raw
          exact raw
        | none =>
          rcases seen with mapped' | shown
          · rw [Mapped, same] at mapped'
            exact absurd before mapped'
          · refine absurd ⟨Nat.le_of_eq same.symm, ?_⟩ (safe.hidden before p shown)
            have := (grown.only _ here_lt before (by rw [grown.here]; simp)).2.2
            omega
      · have out : ¬ (off ≤ p ∧ p < off + data.length) := fun inside =>
          same (cell inside.1 inside.2)
        obtain ⟨held, seen⟩ := known.resolve_left out
        rw [put_out (by omega)]
        have raw := held.1
        rw [rawByte] at raw
        cases before : bmapRead f s.stream (p / f.blockSize) with
        | some d =>
          have other : d ≠ b := by
            rintro rfl
            exact same (bmapRead_inj grown.shape fits' (block_lt small) here_lt
              (grown.keeps _ _ before) grown.here)
          rw [before] at raw
          rw [grown.keeps _ _ before]
          simp only [update_of_ne other]
          exact raw
        | none =>
          rw [before] at raw
          cases after : bmapRead f w.stream (p / f.blockSize) with
          | none => exact raw
          | some d =>
            have opens := grown.only _ (block_lt small) before (by rw [after]; simp)
            rcases seen with mapped' | shown
            · exact absurd before mapped'
            · exact absurd opens.2 (safe.hidden opens.1 p shown)
    · -- in its page
      obtain ⟨page, present, value⟩ :=
        updatePages_at s.pages (page_of_block pages inBlock) cached
      rw [value]
      exact put_congr fun inside => (known.resolve_left inside).1.2 page present

theorem writeLoop_wrote {fuel : Nat} (bound : off + data.length < 2 ^ 32)
    (safe : LoopSafe f shows fuel s off data) (done : writeLoop f fuel s off data = some s') :
    Wrote f shows s off data s' := by
  induction fuel generalizing s off data with
  | zero =>
    cases data with
    | nil =>
      cases done
      exact .nil shape fits
    | cons b rest => cases done
  | succ fuel ih =>
    cases data with
    | nil =>
      cases done
      exact .nil shape fits
    | cons b rest =>
      rw [LoopSafe] at safe
      rw [writeLoop] at done
      generalize amount : min (f.blockSize - off % f.blockSize) (b :: rest).length = n at *
      generalize b :: rest = data at *
      obtain ⟨s₁, chunk, done⟩ := Option.bind_eq_some_iff.mp done
      have low := Nat.mod_lt off (blockSize_pos f)
      have taken : (data.take n).length = n := by
        rw [length_take]
        omega
      have first := writeChunk_wrote pages shape fits (by omega) (by omega) safe.1 chunk
      have second := ih first.shape first.fits (by rw [length_drop]; omega) (safe.2 s₁ chunk) done
      rw [← taken] at second
      have both := first.append second
      rwa [taken, take_append_drop] at both

end Loop

/-! ## The invariant -/

/-- The file holds its content, inline or in its stream. -/
structure Good (f : Format) (s : File) (c : Nat → UInt8) : Prop where
  shape : Shape f s.stream
  fits : Fits f (fun _ => True) (· = 0) s.work
  short : s.size < 2 ^ 32
  beyond : ∀ p, s.size ≤ p → c p = 0
  noStream : s.isInline = true ∨ s.size = 0 → s.stream.direct = [] ∧ s.stream.tables = []
  long : s.stream.tables ≠ [] → s.stream.maxDirectRange * f.blockSize ≤ s.size
  inlined : s.isInline = true → ∀ p, p < s.size → s.tail p = c p
  held : s.isInline = false → ∀ p, p < s.size → Holds f s p (c p)

open File

section Inv

variable {f : Format} {base : Nat} {s : File} {c : Nat → UInt8} {off : Nat} {data : Bytes}
  {p : Nat} {s' : File} {length : Nat}

theorem Created.good {x : Sys} (created : Created f x) : Good f x.file x.content := by
  have direct : x.file.stream.direct = [] := by rw [created.stream]; rfl
  have tables : x.file.stream.tables = [] := by rw [created.stream]; rfl
  have blocks : x.file.stream.blocks f.agShift = [] := by rw [created.stream]; rfl
  refine ⟨⟨?_, ?_, ?_, ?_, fun some => absurd tables some, ?_, ?_⟩,
    ⟨⟨fun _ _ => trivial, trivial, trivial, fun _ _ _ _ => trivial⟩, ?_, ?_, ?_, ?_, ?_⟩,
    ?_, fun p _ => created.content p, fun _ => ⟨direct, tables⟩, fun some => absurd tables some,
    fun inlined => ?_, fun _ p below => ?_⟩
  · simp [direct]
  · simp [tables]
  · simp [direct]
  · rw [tables]
    trivial
  · rw [Stream.directData, direct]
    exact Nat.zero_le _
  · rw [created.stream]
    decide
  · rw [work, blocks]
    exact nodup_nil
  · simp [work, blocks]
  · simp [work, blocks]
  · simp [work, blocks]
  · rintro b rfl
    exact created.super
  · rw [created.size]
    decide
  · rw [created.isInline] at inlined
    cases inlined
  · rw [created.size] at below
    omega

/-- The content behind a write's end and the old size. -/
theorem put_beyond (beyond : ∀ p, s.size ≤ p → c p = 0)
    (behind : max s.size (off + data.length) ≤ p) : put c off data p = 0 := by
  rw [put_out (.inr (by omega))]
  exact beyond p (by omega)

theorem inlineWrite_good (good : Good f s c) (bound : off + data.length < 2 ^ 32)
    (place : s.isInline = true ∨ (s.size = 0 ∧ off = 0)) :
    Good f (inlineWrite f base s off data) (put c off data) := by
  have short := good.short
  have none := good.noStream (place.imp_right (·.1))
  refine ⟨good.shape, good.fits, ?_, fun p behind => put_beyond good.beyond behind,
    fun _ => none, fun some => absurd none.2 some, fun _ p below => ?_,
    fun stream => absurd stream (by simp [inlineWrite])⟩
  · show max s.size (off + data.length) < 2 ^ 32
    omega
  · have below : p < max s.size (off + data.length) := below
    have unzeroed : (inlineWrite f base s off data).tail p =
        put (if s.size < off then zeroed s.tail s.size off else s.tail) off data p := by
      simp only [inlineWrite]
      split
      · rw [zeroed, if_neg (by omega)]
      · rfl
    rw [unzeroed]
    refine put_congr fun inside => ?_
    by_cases old : p < s.size
    · have kept : s.tail p = c p := by
        rcases place with isInline | empty
        · exact good.inlined isInline p old
        · omega
      split
      · rw [zeroed, if_neg (by omega), kept]
      · exact kept
    · -- the gap is zeroed, and its content is zero
      rw [if_pos (by omega), zeroed, if_pos (by omega), good.beyond p (by omega)]

/-- The write loop on a file that holds its content and whose gap is zero. -/
theorem streamWrite_good (pages : f.bits ≤ 12) (good : Good f s c)
    (stream : s.isInline = false ∨ data = []) (bound : off + data.length < 2 ^ 32)
    (gap : ∀ p, s.size ≤ p → p < off → KeptZero f s p)
    (safe : LoopSafe f (Shows s.size off data.length) data.length s off data)
    (done : streamWrite f s off data = some s') : Good f s' (put c off data) := by
  obtain ⟨t, looped, rfl⟩ := Option.map_eq_some_iff.mp done
  have wrote := writeLoop_wrote pages good.shape good.fits bound safe looped
  obtain ⟨size, isInline, tail⟩ := wrote.inode
  have short := good.short
  refine ⟨wrote.shape, wrote.fits, ?_, fun p behind => ?_, fun place => ?_, fun some => ?_,
    fun inlined p below => ?_, fun streamed p below => ?_⟩
  · show max t.size (off + data.length) < 2 ^ 32
    omega
  · rw [size] at behind
    exact put_beyond good.beyond behind
  · have place : s.isInline = true ∨ max s.size (off + data.length) = 0 := by
      rw [← isInline, ← size]
      exact place
    cases data with
    | nil =>
      cases looped
      refine good.noStream (place.imp_right fun empty => ?_)
      exact Nat.le_zero.mp (empty ▸ Nat.le_max_left s.size _)
    | cons b rest =>
      rw [stream.resolve_right (cons_ne_nil b rest), length_cons] at place
      rcases place with isInline | empty
      · cases isInline
      · omega
  · show t.stream.maxDirectRange * f.blockSize ≤ max t.size (off + data.length)
    rcases wrote.tables some with ⟨before, range⟩ | range
    · have long := good.long before
      rw [range]
      omega
    · omega
  · have wasInline : s.isInline = true := isInline ▸ inlined
    obtain rfl := stream.resolve_left (by simp [wasInline])
    have below : p < max t.size (off + 0) := below
    rw [put_nil, tail]
    by_cases old : p < s.size
    · exact good.inlined wasInline p old
    · have zero := gap p (by omega) (by omega)
      rw [KeptZero, if_pos wasInline] at zero
      rw [zero, good.beyond p (by omega)]
  · have streamed : s.isInline = false := isInline ▸ streamed
    have below : p < max t.size (off + data.length) := below
    refine wrote.holds c p (by omega) ?_
    by_cases inside : off ≤ p ∧ p < off + data.length
    · exact .inl inside
    refine .inr ⟨?_, .inr ⟨by omega, inside⟩⟩
    by_cases old : p < s.size
    · exact good.held streamed p old
    · have zero := gap p (by omega) (by omega)
      rw [KeptZero, if_neg (by simp [streamed])] at zero
      rw [good.beyond p (by omega)]
      exact zero

theorem put_copy (g : Nat → UInt8) (n : Nat) (below : p < n) :
    put c 0 ((List.range n).map g) p = g p := by
  simp [put, below]

/-- A file that was moved to blocks holds its content there. -/
theorem inlineExpand_good (pages : f.bits ≤ 12) (good : Good f s c) (isInline : s.isInline = true)
    (safe : LoopSafe f (fun _ => False) s.size s 0 ((List.range s.size).map s.tail))
    (done : inlineExpand f s = some s') :
    (s.size = 0 → s' = { s with isInline := false }) ∧ s'.size = s.size ∧
      s'.isInline = false ∧ Good f s' c := by
  obtain ⟨t, looped, rfl⟩ := Option.map_eq_some_iff.mp done
  have short := good.short
  have none := good.noStream (.inl isInline)
  have bound : 0 + ((List.range s.size).map s.tail).length < 2 ^ 32 := by simpa using short
  have wrote := writeLoop_wrote pages good.shape good.fits bound safe looped
  obtain ⟨size, _, _⟩ := wrote.inode
  have untouched : s.size = 0 → t = s := by
    intro empty
    rw [empty] at looped
    cases looped
    rfl
  refine ⟨fun empty => by rw [untouched empty], size, rfl, wrote.shape, wrote.fits, ?_,
    fun p behind => ?_, fun place => ?_, fun some => ?_, fun stays => ?_, fun _ p below => ?_⟩
  · exact (Nat.lt_of_le_of_lt (Nat.le_of_eq size) short : t.size < 2 ^ 32)
  · exact good.beyond p (size ▸ behind)
  · rcases place with stays | empty
    · cases stays
    · obtain rfl := untouched (size ▸ empty)
      exact none
  · rcases wrote.tables some with ⟨before, _⟩ | range
    · exact absurd none.2 before
    · simpa [size] using range
  · cases stays
  · have below : p < s.size := size ▸ below
    have copied := wrote.holds c p (by omega) (.inl ⟨Nat.zero_le _, by simpa using below⟩)
    rw [put_copy s.tail _ below, good.inlined isInline p below] at copied
    exact copied

theorem fileWrite_good (pages : f.bits ≤ 12) (good : Good f s c)
    (bound : off + data.length < 2 ^ 32) (safe : SafeLabel f s (.write off data))
    (done : fileWrite f base s off data = some s') : Good f s' (put c off data) := by
  simp only [SafeLabel] at safe
  unfold fileWrite at done
  split at done
  · rename_i isInline
    rw [if_pos isInline] at safe
    split at done
    · cases done
      exact inlineWrite_good good bound (.inl isInline.2)
    rename_i outgrows
    obtain ⟨within, copying, writing⟩ := safe (Nat.lt_of_not_le outgrows)
    obtain ⟨t, expanded, done⟩ := Option.bind_eq_some_iff.mp done
    obtain ⟨_, size, stream, good'⟩ := inlineExpand_good pages good isInline.2 copying expanded
    refine streamWrite_good pages good' (.inl stream) bound (fun p behind before => ?_) ?_ done
    · omega
    · rw [size]
      exact writing t expanded
  · rename_i notInline
    rw [if_neg notInline] at safe
    split at done
    · rename_i first
      cases done
      obtain rfl := first.2.2.1
      exact inlineWrite_good good bound (.inr ⟨first.2.1, rfl⟩)
    · rename_i notFirst
      rw [if_neg notFirst] at safe
      refine streamWrite_good pages good ?_ bound safe.1 safe.2 done
      by_cases none : data = []
      · exact .inr none
      · left
        have := fun isInline => notInline ⟨none, isInline⟩
        simpa using this

theorem cutFile_good (good : Good f s c) (stream : s.isInline = false)
    (bound : length < 2 ^ 32) (grows : ∀ p, s.size ≤ p → p < length → Holds f s p 0) :
    Good f (cutFile f s length) fun p => if p < length then c p else 0 := by
  have raw : ∀ p, p < length → rawByte f (cutFile f s length) p = rawByte f s p := by
    intro p below
    have block : p / f.blockSize * f.blockSize < length :=
      Nat.lt_of_le_of_lt (Nat.div_mul_le_self _ _) below
    have small : p / f.blockSize < 2 ^ 32 :=
      Nat.lt_of_le_of_lt (Nat.div_le_self _ _) (by omega)
    have same := truncateStream_read good.shape good.fits rfl block small
    show (match bmapRead f (truncateStream f s.stream length).1 (p / f.blockSize) with
      | some b => s.disk b (p % f.blockSize)
      | none => 0) = _
    rw [same]
    rfl
  refine ⟨truncateStream_shape good.shape length,
    truncateStream_fits unwrapped_keeps good.fits length, bound, fun p behind => ?_, fun place => ?_,
    fun some => ?_, fun isInline => ?_, fun _ p below => ?_⟩
  · exact if_neg (Nat.not_lt.mpr behind)
  · obtain rfl := place.resolve_left fun isInline => by
      have isInline : s.isInline = true := isInline
      rw [stream] at isInline
      cases isInline
    have short : 0 ≤ s.stream.maxDirectRange * f.blockSize := Nat.zero_le _
    obtain ⟨direct, tables⟩ := truncateStream_short short
    refine ⟨?_, tables⟩
    show (truncateStream f s.stream 0).1.direct = []
    exact cutRuns_none good.shape.direct (Nat.le_refl 0)
  · show (truncateStream f s.stream length).1.maxDirectRange * f.blockSize ≤ length
    rw [truncateStream_range]
    by_contra short
    exact some (truncateStream_short (Nat.le_of_lt (Nat.lt_of_not_le short))).2
  · have isInline : s.isInline = true := isInline
    rw [stream] at isInline
    cases isInline
  · have below : p < length := below
    rw [if_pos below, Holds, raw p below]
    by_cases old : p < s.size
    · exact good.held stream p old
    · rw [good.beyond p (by omega)]
      exact grows p (by omega) below

theorem truncate_good (pages : f.bits ≤ 12) (good : Good f s c)
    (bound : length < 2 ^ 32) (safe : SafeLabel f s (.truncate length))
    (done : truncate f s length = some s') :
    Good f s' fun p => if p < length then c p else 0 := by
  simp only [SafeLabel] at safe
  unfold truncate at done
  split at done
  · rename_i isInline
    have none := good.noStream (.inl isInline)
    split at done
    · rw [if_neg (by omega)] at safe
      cases done
      refine ⟨good.shape, good.fits, bound, fun p behind => if_neg (Nat.not_lt.mpr behind),
        fun _ => none, fun some => absurd none.2 some, fun _ p below => ?_, fun stream => ?_⟩
      · have below : p < length := below
        have unzeroed : (if length < s.size then zeroed s.tail length s.size else s.tail) p =
            s.tail p := by
          split
          · rw [zeroed, if_neg (by omega)]
          · rfl
        show (if length < s.size then zeroed s.tail length s.size else s.tail) p = _
        rw [unzeroed, if_pos below]
        by_cases old : p < s.size
        · exact good.inlined isInline p old
        · have zero := safe p (by omega) below
          rw [KeptZero, if_pos isInline] at zero
          rw [zero, good.beyond p (by omega)]
      · rw [isInline] at stream
        cases stream
    · rename_i outgrows
      rw [if_pos ⟨isInline, Nat.lt_of_not_le outgrows⟩] at safe
      obtain ⟨empty, zero⟩ := safe
      obtain ⟨t, expanded, rfl⟩ := Option.map_eq_some_iff.mp done
      have copying : LoopSafe f (fun _ => False) s.size s 0 ((List.range s.size).map s.tail) := by
        rw [empty]
        trivial
      obtain ⟨same, _, stream, good'⟩ := inlineExpand_good pages good isInline copying expanded
      obtain rfl := same empty
      exact cutFile_good good' stream bound fun p _ below => zero p below
  · rename_i notInline
    rw [if_neg (fun both => notInline both.1)] at safe
    cases done
    have stream : s.isInline = false := by simpa using notInline
    refine cutFile_good good stream bound fun p behind below => ?_
    have zero := safe p behind below
    rwa [KeptZero, if_neg notInline] at zero

variable (good : Good f s c)

include good

theorem trimPrealloc_good : Good f (trimPrealloc f s) c := by
  unfold trimPrealloc
  split
  · exact good
  rename_i stream
  rw [not_or] at stream
  have notInline : s.isInline = false := by simpa using stream.2
  refine ⟨trimStream_shape good.shape good.long, trimStream_fits unwrapped_keeps good.fits _,
    good.short, good.beyond, fun place => absurd place ?_, fun some => ?_,
    fun isInline => absurd isInline stream.2, fun _ p below => ?_⟩
  · rw [not_or]
    exact ⟨stream.2, stream.1⟩
  · have same : (trimStream f s.stream s.size).1.tables = s.stream.tables ∧
        (trimStream f s.stream s.size).1.maxDirectRange = s.stream.maxDirectRange := by
      rcases trimStream_cases good.shape.direct s.size with same | ⟨runs, trimmed, _⟩
      · rw [same]
        exact ⟨rfl, rfl⟩
      · rw [trimmed]
        exact ⟨rfl, rfl⟩
    rw [same.2]
    exact good.long (same.1 ▸ some)
  · have read := trimStream_read good.shape good.long
      (Nat.lt_of_le_of_lt (Nat.div_mul_le_self p f.blockSize) below)
    have held := good.held notInline p below
    refine ⟨?_, held.2⟩
    show (match bmapRead f (trimStream f s.stream s.size).1 (p / f.blockSize) with
      | some b => s.disk b (p % f.blockSize)
      | none => 0) = _
    rw [read]
    exact held.1

/-- Other pages may be cached, if they agree with the content. -/
theorem Good.cached {pages : Nat → Option (Nat → UInt8)}
    (agree : s.isInline = false → ∀ p, p < s.size → ∀ page,
      pages (p / pageSize) = some page → page (p % pageSize) = c p) :
    Good f { s with pages := pages } c :=
  ⟨good.shape, good.fits, good.short, good.beyond, good.noStream, good.long, good.inlined,
    fun stream p below => ⟨(good.held stream p below).1, agree stream p below⟩⟩

/-- A page holds the content, cached or read. -/
theorem page_content (stream : s.isInline = false) {k : Nat} (below : p < s.size)
    (same : p / pageSize = k) :
    ((s.pages k).getD (breadPage f s k)) (p % pageSize) = c p := by
  have held := good.held stream p below
  subst same
  cases present : s.pages (p / pageSize) with
  | some page => exact held.2 page present
  | none =>
    show rawByte f s (p / pageSize * pageSize + p % pageSize) = c p
    rw [Nat.div_add_mod']
    exact held.1

theorem Good.loaded (k : Nat) :
    Good f { s with
      pages := update s.pages k (some ((s.pages k).getD (breadPage f s k))) } c := by
  refine good.cached fun stream p below page cached => ?_
  by_cases same : p / pageSize = k
  · rw [same, update_self] at cached
    cases cached
    exact page_content good stream below same
  · rw [update_of_ne same] at cached
    exact (good.held stream p below).2 page cached

theorem readLoop_good {fuel count : Nat} (stream : s.isInline = false) (enough : count ≤ fuel)
    (inside : off ≤ s.size) :
    (readLoop f fuel s off count).1 = (List.range' off (min count (s.size - off))).map c ∧
      Good f (readLoop f fuel s off count).2 c := by
  induction fuel generalizing s off count with
  | zero =>
    obtain rfl : count = 0 := by omega
    exact ⟨by simp [readLoop], good⟩
  | succ fuel ih =>
    rw [readLoop]
    generalize wanted : min count (s.size - off) = n at *
    simp only
    split
    · rename_i none
      rw [none]
      exact ⟨rfl, good⟩
    · generalize taken : min (pageSize - off % pageSize) n = m
      have low : off % pageSize < pageSize := Nat.mod_lt _ (by decide)
      have parts := Nat.div_add_mod off pageSize
      obtain ⟨bytes, last⟩ := ih (good.loaded (off / pageSize)) stream
        (show n - m ≤ fuel by omega) (show off + m ≤ s.size by omega)
      refine ⟨?_, last⟩
      have rest : min (n - m) (s.size - (off + m)) = n - m := by omega
      have split : List.range' off n = List.range' off m ++ List.range' (off + m) (n - m) := by
        rw [List.range'_append_1]
        congr 1
        omega
      rw [bytes, split, map_append]
      show _ ++ List.map c (List.range' (off + m) (min (n - m) (s.size - (off + m)))) = _
      rw [rest]
      congr 1
      refine ext_getElem (by simp) fun i inRange _ => ?_
      simp only [length_map, length_range'] at inRange
      simp only [getElem_map, getElem_range', Nat.one_mul]
      have same : (off + i) / pageSize = off / pageSize := by
        refine Nat.div_eq_of_lt_le ?_ ?_
        · rw [Nat.mul_comm]
          omega
        · rw [Nat.add_mul, Nat.mul_comm]
          omega
      have position : (off + i) % pageSize = off % pageSize + i := by
        have := Nat.div_add_mod (off + i) pageSize
        rw [same] at this
        omega
      rw [← position]
      exact page_content good stream (by omega) same

theorem fileRead_good (off count : Nat) :
    (fileRead f s off count).1 = (List.range' off (min count (s.size - off))).map c ∧
      Good f (fileRead f s off count).2 c := by
  unfold fileRead
  split
  · rename_i isInline
    split
    · refine ⟨?_, good⟩
      rw [show min count (s.size - off) = 0 by omega]
      rfl
    · refine ⟨map_congr_left fun p member => ?_, good⟩
      rw [mem_range'_1] at member
      exact good.inlined isInline p (by omega)
  · rename_i notInline
    have stream : s.isInline = false := by simpa using notInline
    obtain ⟨bytes, good'⟩ := readLoop_good good stream (Nat.le_refl count)
      (Nat.min_le_right off s.size)
    refine ⟨?_, good'⟩
    rw [bytes]
    by_cases inside : off ≤ s.size
    · rw [Nat.min_eq_left inside]
    · have none : min count (s.size - off) = 0 := by omega
      have none' : min count (s.size - min off s.size) = 0 := by omega
      rw [none, none']
      rfl

end Inv

/-! ## Runs -/

section Runs

variable {f : Format} {base : Nat}

theorem step_good (pages : f.bits ≤ 12) {x x' : Sys} {l : Label} (good : Good f x.file x.content)
    (safe : SafeLabel f x.file l) (taken : step f base x l = some x') :
    Good f x'.file x'.content := by
  cases l with
  | write off data =>
    simp only [step] at taken
    split at taken
    · rename_i bound
      obtain ⟨s, done, rfl⟩ := Option.map_eq_some_iff.mp taken
      exact fileWrite_good pages good bound safe done
    · cases taken
  | truncate length =>
    simp only [step] at taken
    split at taken
    · rename_i bound
      obtain ⟨s, done, rfl⟩ := Option.map_eq_some_iff.mp taken
      exact truncate_good pages good bound safe done
    · cases taken
  | read off count =>
    cases taken
    exact (fileRead_good good off count).2
  | trim =>
    cases taken
    exact trimPrealloc_good good
  | evict k =>
    cases taken
    refine good.cached fun stream p below page cached => ?_
    by_cases same : p / pageSize = k
    · rw [same, update_self] at cached
      cases cached
    · rw [update_of_ne same] at cached
      exact (good.held stream p below).2 page cached

/-- **Reads return the content of the file**: after any sequence of successful writes,
truncations, reads, trims and evictions on a new file, if each of them is safe. -/
theorem reads_content (pages : f.bits ≤ 12) {x₀ x : Sys} {ls : List Label} (created : Created f x₀)
    (safe : Guarded (step f base) (fun x => SafeLabel f x.file) x₀ ls)
    (ran : run (step f base) x₀ ls = some x) : ReadsContent f x := by
  have good := run_inv
    (fun _ _ _ good safe taken => step_good pages good safe taken) created.good safe ran
  exact fun off count => (fileRead_good good off count).1

end Runs

/-! ## Poles -/

open Agfs.Ownership (threeGroups blankVol)

/-- A new file on a volume of zeros. -/
def newFile : Sys where
  file :=
    { space := blankVol.space
      stream := .empty
      size := 0
      isInline := false
      tail _ := 0
      disk _ _ := 0
      pages _ := none }
  content _ := 0

theorem newFile_created : Created threeGroups newFile := ⟨rfl, rfl, rfl, rfl, fun _ => rfl⟩

/-- A file gets a window, is read and trimmed, leaves the cache and is read again. -/
def windowLife (data : Bytes) : List Label :=
  [.write 0 data, .read 0 data.length, .trim, .evict 0, .read 0 data.length]

/-- The first write of a new file, when it is too long to be inline and fits a block. -/
theorem firstWrite_safe {data : Bytes} (long : inlineMax < data.length)
    (short : data.length ≤ threeGroups.blockSize) :
    SafeLabel threeGroups newFile.file (.write 0 data) := by
  simp only [SafeLabel]
  rw [if_neg (fun both => absurd both.2 (by decide)),
    if_neg (fun few => absurd few.2.2.2 (Nat.not_le.mpr long))]
  refine ⟨fun p _ below => absurd below (Nat.not_lt_zero p), ?_⟩
  cases data with
  | nil => trivial
  | cons b rest =>
    -- the first block of a window, and nothing is shown that is not written
    refine ⟨⟨fun s nb wlen done beyond => ?_, fun _ _ => rfl, fun _ p shown => ?_⟩, fun s _ => ?_⟩
    · have positive := (ballocContig_takes (by decide) done).1
      rw [Nat.zero_div] at beyond
      omega
    · rcases shown.1 with below | below <;> exact absurd below (Nat.not_lt_zero p)
    · rw [Nat.zero_mod, Nat.sub_zero, Nat.min_eq_right short, drop_length]
      cases rest.length <;> trivial

theorem windowLife_safe {data : Bytes} (long : inlineMax < data.length)
    (short : data.length ≤ threeGroups.blockSize) :
    Guarded (step threeGroups 20) (fun x => SafeLabel threeGroups x.file) newFile
      (windowLife data) := by
  exact ⟨firstWrite_safe long short, fun _ _ => ⟨trivial, fun _ _ => ⟨trivial, fun _ _ =>
    ⟨trivial, fun _ _ => ⟨trivial, fun _ _ => trivial⟩⟩⟩⟩⟩

theorem reads_content_windowLife :
    ∃ x, run (step threeGroups 20) newFile (windowLife (List.replicate 600 7)) = some x ∧
      ReadsContent threeGroups x := by
  have length : (List.replicate 600 (7 : UInt8)).length = 600 := length_replicate
  have long : inlineMax < (List.replicate 600 (7 : UInt8)).length := by rw [length]; decide
  have short : (List.replicate 600 (7 : UInt8)).length ≤ threeGroups.blockSize := by
    rw [length]
    decide
  refine exists_run (by decide +kernel) fun x ran => ?_
  exact reads_content (by decide) newFile_created (windowLife_safe long short) ran

/-- The byte is written to the first block of the window and looked for in the second. -/
def lostTest (x : Sys) : Bool :=
  (fileRead threeGroups x.file 1024 1).1 == [0] && x.content 1024 == 65 && x.file.size == 1025

theorem sparse_write_ends :
    (run (step threeGroups 20) newFile [.write 1024 [65]]).any lostTest = true := by
  decide +kernel

/-- **A byte written behind a hole is not read back**: the file is new, its first write is one
byte in its second block, and reading that byte returns zero. -/
theorem sparse_write_lost :
    ∃ x, Created threeGroups newFile ∧
      run (step threeGroups 20) newFile [.write 1024 [65]] = some x ∧
      ¬ ReadsContent threeGroups x := by
  obtain ⟨x, ran, lost⟩ := (Option.any_eq_true _ _).mp sparse_write_ends
  simp only [lostTest, Bool.and_eq_true, beq_iff_eq] at lost
  obtain ⟨⟨zero, wanted⟩, size⟩ := lost
  refine ⟨x, newFile_created, ran, fun reads => ?_⟩
  have read := reads 1024 1
  rw [zero, size] at read
  simp [wanted] at read

end Argentum.Agfs.FileContent
