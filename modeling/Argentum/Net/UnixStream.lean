/-
# Net.UnixStream — the byte stream of a connected AF_UNIX pair

Each end of a connection has a ring of `PIPE_BUF` bytes that the other end writes and it reads
itself. `unix_write` and `unix_read` wrap the offsets lazily: a reader resets the write offset that
stands at the end of the ring, a writer the read offset. Any number of calls may be asleep on
either end.

`stream_in_order`: reads return what writes have accepted. `SafeAction` leaves out three paths: a
reader that finds its offset at the end of the ring with more data at the start takes it for an
empty ring and returns 0; a signal makes a read that has consumed bytes return `-EINTR`; and a
second reader overtakes one that sleeps on what it has consumed.
-/
import Argentum.Lib.ByteMap
import Argentum.Lib.Machine
import Mathlib.Data.List.Nodup

namespace Argentum.Net.UnixStream

open Lib Lib.Machine Lib.ByteMap List

/-! ## The ring -/

def pipeBuf : Nat := 4096

structure Ring where
  readoff : Nat
  writeoff : Nat
  size : Nat
  data : Nat → UInt8

namespace Ring

variable (r : Ring) (n : Nat)

/-- `limit` of `unix_read`. -/
def readLimit : Nat :=
  if r.writeoff ≠ 0 then
    if r.writeoff ≤ r.readoff then pipeBuf - r.readoff else r.writeoff - r.readoff
  else pipeBuf - r.readoff

/-- `limit` of `unix_write`. -/
def writeLimit : Nat :=
  if r.readoff ≠ 0 then
    if r.writeoff ≤ r.readoff then r.readoff else pipeBuf
  else pipeBuf

def peek : Bytes := slice r.data r.readoff n

def take : Ring :=
  { r with
    readoff := r.readoff + n
    size := r.size - n
    writeoff := if r.writeoff = pipeBuf then 0 else r.writeoff }

def append (bytes : Bytes) : Ring :=
  { data := put r.data r.writeoff bytes
    writeoff := r.writeoff + bytes.length
    size := r.size + bytes.length
    readoff := if r.readoff = pipeBuf then 0 else r.readoff }

/-- What `unix_read` does after its loop. -/
def reset : Ring := if r.size = 0 then { r with readoff := 0, writeoff := 0 } else r

def wrapRead : Ring := if r.readoff = pipeBuf then { r with readoff := 0 } else r

/-- The bytes in the ring, in order. -/
def content : Bytes :=
  if r.size = 0 then []
  else if r.readoff < r.writeoff then slice r.data r.readoff (r.writeoff - r.readoff)
  else slice r.data r.readoff (pipeBuf - r.readoff) ++ slice r.data 0 r.writeoff

end Ring

/-! ## The calls -/

inductive ReadEnd
  | returns (got : Bytes)
  | again
  | sleeps (count : Nat) (got : Bytes)
  deriving DecidableEq

/-- The loop of `unix_read`; `up` is `SS_CONNECTED`, otherwise `SS_DISCONNECTING`. -/
def readLoop (up nonblock : Bool) : Nat → Ring → Nat → Bytes → Option (Ring × ReadEnd)
  | 0, _, _, _ => none
  | fuel + 1, r, count, got =>
    if count = 0 then some (r.reset, .returns got)
    else
      let n := min r.readLimit count
      if r.size ≠ 0 ∧ n ≠ 0 then
        readLoop up nonblock fuel (r.take n) (count - n) (got ++ r.peek n)
      else if up = false then
        if r.size ≠ 0 then readLoop up nonblock fuel r.wrapRead count got
        else some (r, .returns got)
      else if r.writeoff ≠ 0 then some (r.reset, .returns got)
      else if nonblock then
        if got ≠ [] then some (r.reset, .returns got) else some (r, .again)
      else some (r, .sleeps count got)

/-- `unix_read`, or the rest of it after a sleep. -/
def unixRead (up nonblock : Bool) (r : Ring) (count : Nat) (got : Bytes) :
    Option (Ring × ReadEnd) :=
  readLoop up nonblock (2 * count + 2) r count got

inductive WriteEnd
  | returns (written : Nat)
  | again
  | pipe
  | sleeps (rest : Bytes) (written : Nat)
  deriving DecidableEq

/-- The loop of `unix_write`; `taken` are the bytes copied since the call was last resumed. -/
def writeLoop (up nonblock : Bool) : Nat → Ring → Bytes → Nat → Bytes →
    Option (Ring × WriteEnd × Bytes)
  | 0, _, _, _, _ => none
  | fuel + 1, r, rest, written, taken =>
    if rest = [] then some (r, .returns written, taken)
    else if up = false then some (r, .pipe, taken)
    else
      let n := min rest.length (r.writeLimit - r.writeoff)
      if n ≠ 0 ∧ n ≤ pipeBuf then
        writeLoop up nonblock fuel (r.append (rest.take n)) (rest.drop n) (written + n)
          (taken ++ rest.take n)
      else if nonblock then
        if written ≠ 0 then some (r, .returns written, taken) else some (r, .again, taken)
      else some (r, .sleeps rest written, taken)

/-- `unix_write`, or the rest of it after a sleep. -/
def unixWrite (up nonblock : Bool) (r : Ring) (rest : Bytes) (written : Nat) :
    Option (Ring × WriteEnd × Bytes) :=
  writeLoop up nonblock (rest.length + 1) r rest written []

/-! ## The connection -/

/-- A sleeping `unix_read`. -/
structure Reader where
  id : Nat
  asked : Nat
  count : Nat
  got : Bytes
  deriving DecidableEq

/-- A sleeping `unix_write`. -/
structure Writer where
  id : Nat
  rest : Bytes
  written : Nat
  deriving DecidableEq

/-- A `unix_read` that returned bytes: what it was asked for, whether the connection was up. -/
structure Reply where
  asked : Nat
  up : Bool
  bytes : Bytes
  deriving DecidableEq

/-- One direction: the ring, its sleepers, the bytes that writes have copied into it and the reads
that have returned. -/
structure Stream where
  ring : Ring
  readers : List Reader
  writers : List Writer
  accepted : Bytes
  replies : List Reply

inductive Action
  | read (id count : Nat) (nonblock : Bool)
  | wakeReader (id : Nat)
  | interruptReader (id : Nat)
  | write (id : Nat) (bytes : Bytes) (nonblock : Bool)
  | wakeWriter (id : Nat)
  | interruptWriter (id : Nat)
  deriving DecidableEq

namespace Stream

variable (s : Stream) (id : Nat)

def returned : Bytes := s.replies.flatMap Reply.bytes

/-- What sleeping reads have consumed. -/
def held : Bytes := s.readers.flatMap Reader.got

def others : List Reader := s.readers.filter fun r => r.id ≠ id

def reader? : Option Reader := s.readers.find? fun r => r.id = id

def writer? : Option Writer := s.writers.find? fun w => w.id = id

/-- A read of `reader` runs on. -/
def runRead (up nonblock : Bool) (reader : Reader) : Option Stream :=
  (unixRead up nonblock s.ring reader.count reader.got).map fun done =>
    match done.2 with
    | .returns got =>
      { s with
        ring := done.1
        readers := s.others reader.id
        replies := s.replies ++ [⟨reader.asked, up, got⟩] }
    | .again => { s with ring := done.1, readers := s.others reader.id }
    | .sleeps count got =>
      { s with
        ring := done.1
        readers := { reader with count := count, got := got } :: s.others reader.id }

/-- A write of `writer` runs on. -/
def runWrite (up nonblock : Bool) (writer : Writer) : Option Stream :=
  (unixWrite up nonblock s.ring writer.rest writer.written).map fun done =>
    { s with
      ring := done.1
      accepted := s.accepted ++ done.2.2
      writers := match done.2.1 with
        | .sleeps rest written =>
          ⟨writer.id, rest, written⟩ :: s.writers.filter fun w => w.id ≠ writer.id
        | _ => s.writers.filter fun w => w.id ≠ writer.id }

/-- A sleeper is a blocking call. -/
def step (up : Bool) : Action → Option Stream
  | .read id count nonblock =>
    if s.reader? id = none then s.runRead up nonblock ⟨id, count, count, []⟩ else none
  | .wakeReader id => (s.reader? id).bind fun reader => s.runRead up false reader
  | .interruptReader id =>
    (s.reader? id).map fun _ => { s with readers := s.others id }
  | .write id bytes nonblock =>
    if s.writer? id = none then s.runWrite up nonblock ⟨id, bytes, 0⟩ else none
  | .wakeWriter id => (s.writer? id).bind fun writer => s.runWrite up false writer
  | .interruptWriter id =>
    (s.writer? id).map fun _ => { s with writers := s.writers.filter fun w => w.id ≠ id }

end Stream

/-- A connected pair; `streams e` is what the end `e` reads. -/
structure Pair where
  up : Bool
  streams : Bool → Stream

inductive Label
  | on (reads : Bool) (a : Action)
  | disconnect
  deriving DecidableEq

def step (c : Pair) : Label → Option Pair
  | .on e a =>
    ((c.streams e).step c.up a).map fun s =>
      { c with streams := Function.update c.streams e s }
  | .disconnect => some { c with up := false }

def emptyRing : Ring := ⟨0, 0, 0, fun _ => 0⟩

/-- `unix_socketpair`. -/
def socketpair : Pair := ⟨true, fun _ => ⟨emptyRing, [], [], [], []⟩⟩

/-! ## The condition -/

/-- The read offset waits for a writer to wrap it, with data at the start of the ring. -/
def Ring.Stuck (r : Ring) : Prop := r.readoff = pipeBuf ∧ r.writeoff ≠ 0

/-- A reader must not overtake another that holds bytes. -/
def InTurn (s : Stream) (id : Nat) : Prop :=
  s.ring.size = 0 ∨ ∀ r ∈ s.others id, r.got = []

def SafeAction (up : Bool) (s : Stream) : Action → Prop
  | .read id count _ => (up = true → count ≠ 0 → ¬s.ring.Stuck) ∧ InTurn s id
  | .wakeReader id =>
    ∀ reader ∈ s.reader? id, (up = true → reader.got = [] → ¬s.ring.Stuck) ∧ InTurn s id
  | .interruptReader id => ∀ reader ∈ s.reader? id, reader.got = []
  | _ => True

def SafeLabel (c : Pair) : Label → Prop
  | .on e a => SafeAction c.up (c.streams e) a
  | .disconnect => True

/-! ## The ring is a queue -/

/-- The shapes of the ring inside a call: one stretch of data, or a stretch up to the end and one
from the start. -/
inductive Ring.Shape (r : Ring) : Prop
  | straight (order : r.readoff ≤ r.writeoff) (fits : r.writeoff ≤ pipeBuf)
      (size : r.size = r.writeoff - r.readoff)
  | wrapped (moved : 0 < r.readoff) (order : r.writeoff ≤ r.readoff) (fits : r.readoff ≤ pipeBuf)
      (room : r.writeoff < pipeBuf) (size : r.size = pipeBuf - r.readoff + r.writeoff)

/-- Between calls on a living connection an empty straight ring starts at 0. -/
structure Ring.Ok (r : Ring) : Prop where
  shape : r.Shape
  start : r.size = 0 → r.readoff ≤ r.writeoff → r.readoff = 0

section Rings

variable {r : Ring} {n : Nat}

theorem Ring.content_straight (order : r.readoff ≤ r.writeoff)
    (size : r.size = r.writeoff - r.readoff) :
    r.content = slice r.data r.readoff (r.writeoff - r.readoff) := by
  unfold content
  split
  case isTrue empty => rw [← size, empty, slice_zero]
  case isFalse => rw [if_pos (by omega)]

theorem Ring.content_wrapped (order : r.writeoff ≤ r.readoff)
    (size : r.size = pipeBuf - r.readoff + r.writeoff) :
    r.content = slice r.data r.readoff (pipeBuf - r.readoff) ++ slice r.data 0 r.writeoff := by
  unfold content
  split
  case isTrue empty =>
    have front : pipeBuf - r.readoff = 0 := by omega
    have back : r.writeoff = 0 := by omega
    rw [front, back, slice_zero, slice_zero, append_nil]
  case isFalse => rw [if_neg (by omega)]

theorem Ring.Shape.length_content (shape : r.Shape) : r.content.length = r.size := by
  cases shape with
  | straight order fits size => rw [content_straight order size, length_slice, size]
  | wrapped moved order fits room size =>
    rw [content_wrapped order size, length_append, length_slice, length_slice, size]

theorem Ring.Shape.reset (shape : r.Shape) : r.reset.Ok ∧ r.reset.content = r.content := by
  unfold Ring.reset
  split
  case isTrue empty =>
    refine ⟨⟨.straight (Nat.le_refl 0) (Nat.zero_le _) empty, fun _ _ => rfl⟩, ?_⟩
    simp [content, empty]
  case isFalse full => exact ⟨⟨shape, fun empty => absurd empty full⟩, rfl⟩

theorem Ring.readLimit_wrapped (order : r.writeoff ≤ r.readoff) :
    r.readLimit = pipeBuf - r.readoff := by
  unfold readLimit
  split
  · rfl
  · rfl

/-- Reading takes the front of the queue. -/
theorem Ring.Shape.take (shape : r.Shape) (some : r.size ≠ 0) (pos : n ≠ 0)
    (limit : n ≤ r.readLimit) :
    (r.take n).Shape ∧ r.content = r.peek n ++ (r.take n).content := by
  have front : (r.take n).readoff = r.readoff + n := rfl
  have back : (r.take n).writeoff = if r.writeoff = pipeBuf then 0 else r.writeoff := rfl
  have left : (r.take n).size = r.size - n := rfl
  cases shape with
  | straight order fits size =>
    have available : n ≤ r.writeoff - r.readoff := by
      rwa [readLimit, if_pos (by omega), if_neg (by omega)] at limit
    have split : r.content = r.peek n ++
        slice r.data (r.readoff + n) (r.writeoff - (r.readoff + n)) := by
      rw [content_straight order size, peek, ← slice_add]
      congr 1
      omega
    split at back
    case isTrue full =>
      -- the reader resets the write offset
      have order' : (r.take n).writeoff ≤ (r.take n).readoff := by omega
      have size' : (r.take n).size = pipeBuf - (r.take n).readoff + (r.take n).writeoff := by omega
      refine ⟨.wrapped (by omega) order' (by omega) (by omega) size', ?_⟩
      rw [split, content_wrapped order' size', back, front, slice_zero, append_nil, ← full]
      rfl
    case isFalse =>
      have order' : (r.take n).readoff ≤ (r.take n).writeoff := by omega
      have size' : (r.take n).size = (r.take n).writeoff - (r.take n).readoff := by omega
      refine ⟨.straight order' (by omega) size', ?_⟩
      rw [split, content_straight order' size', back, front]
      rfl
  | wrapped moved order fits room size =>
    have available : n ≤ pipeBuf - r.readoff := by rwa [readLimit_wrapped order] at limit
    rw [if_neg (by omega)] at back
    have order' : (r.take n).writeoff ≤ (r.take n).readoff := by omega
    have size' : (r.take n).size = pipeBuf - (r.take n).readoff + (r.take n).writeoff := by omega
    refine ⟨.wrapped (by omega) order' (by omega) (by omega) size', ?_⟩
    rw [content_wrapped order size, content_wrapped order' size', back, front, ← append_assoc,
      show pipeBuf - r.readoff = n + (pipeBuf - (r.readoff + n)) by omega, slice_add]
    rfl

/-- Writing appends to the queue. -/
theorem Ring.Ok.append (ok : r.Ok) {bytes : Bytes} (some : bytes.length ≠ 0)
    (limit : bytes.length ≤ r.writeLimit - r.writeoff) :
    (r.append bytes).Ok ∧ (r.append bytes).content = r.content ++ bytes := by
  have front : (r.append bytes).readoff = if r.readoff = pipeBuf then 0 else r.readoff := rfl
  have back : (r.append bytes).writeoff = r.writeoff + bytes.length := rfl
  have more : (r.append bytes).size = r.size + bytes.length := rfl
  have cells : (r.append bytes).data = put r.data r.writeoff bytes := rfl
  have written := slice_put r.data r.writeoff bytes
  generalize r.append bytes = s at *
  cases ok.shape with
  | straight order fits size =>
    have limit : bytes.length ≤ pipeBuf - r.writeoff := by
      unfold writeLimit at limit
      split at limit
      case isTrue moved =>
        rwa [if_neg fun back => moved (ok.start (by omega) order)] at limit
      case isFalse => exact limit
    rw [if_neg (by omega)] at front
    have order' : s.readoff ≤ s.writeoff := by omega
    have size' : s.size = s.writeoff - s.readoff := by omega
    refine ⟨⟨.straight order' (by omega) size', by omega⟩, ?_⟩
    rw [content_straight order' size', content_straight order size, front, back, cells,
      show r.writeoff + bytes.length - r.readoff = (r.writeoff - r.readoff) + bytes.length by omega,
      slice_add, slice_put_out _ (by omega),
      show r.readoff + (r.writeoff - r.readoff) = r.writeoff by omega, written]
  | wrapped moved order fits room size =>
    have limit : bytes.length ≤ r.readoff - r.writeoff := by
      rwa [writeLimit, if_pos (by omega), if_pos order] at limit
    split at front
    case isTrue atEnd =>
      -- the writer resets the read offset
      have order' : s.readoff ≤ s.writeoff := by omega
      have size' : s.size = s.writeoff - s.readoff := by omega
      refine ⟨⟨.straight order' (by omega) size', by omega⟩, ?_⟩
      rw [content_straight order' size', content_wrapped order size, front, back, cells, atEnd,
        Nat.sub_self, slice_zero, nil_append, Nat.sub_zero, slice_add, slice_put_out _ (by omega),
        Nat.zero_add, written]
    case isFalse =>
      have order' : s.writeoff ≤ s.readoff := by omega
      have size' : s.size = pipeBuf - s.readoff + s.writeoff := by omega
      refine ⟨⟨.wrapped (by omega) order' (by omega) (by omega) size', by omega⟩, ?_⟩
      rw [content_wrapped order' size', content_wrapped order size, front, back, cells,
        append_assoc, slice_put_out _ (by omega), slice_add, slice_put_out _ (by omega),
        Nat.zero_add, written]

/-- A reader that cannot take anything from data has its offset at the end. -/
theorem Ring.Shape.atEnd (shape : r.Shape) (some : r.size ≠ 0) (limit : r.readLimit = 0) :
    r.Stuck ∧ r.wrapRead.Shape ∧ r.wrapRead.content = r.content ∧ r.wrapRead.readoff = 0 := by
  cases shape with
  | straight order fits size =>
    rw [readLimit, if_pos (by omega), if_neg (by omega)] at limit
    omega
  | wrapped moved order fits room size =>
    have last : r.readoff = pipeBuf := by
      rw [readLimit_wrapped order] at limit
      omega
    have wrap : r.wrapRead = { r with readoff := 0 } := if_pos last
    have size' : r.size = r.writeoff := by omega
    rw [wrap]
    refine ⟨⟨last, by omega⟩, ?_, ?_, rfl⟩
    · exact .straight (Nat.zero_le _) (Nat.le_of_lt room) size'
    · rw [content_wrapped order size, content_straight (Nat.zero_le _) size', last, Nat.sub_self,
        slice_zero]
      rfl

/-- A read that finds nothing while the write offset is at 0 has found an empty ring. -/
theorem Ring.Shape.empty (shape : r.Shape) (start : r.writeoff = 0)
    (nothing : r.size = 0 ∨ r.readLimit = 0) : r.Ok ∧ r.content = [] := by
  have empty : r.size = 0 := by
    by_contra some
    exact (shape.atEnd some (nothing.resolve_left some)).1.2 start
  exact ⟨⟨shape, fun _ order => by omega⟩, if_pos empty⟩

/-- A read that finds nothing while the write offset is not at 0 is stuck. -/
theorem Ring.Ok.stuck (ok : r.Ok) (moved : r.writeoff ≠ 0)
    (nothing : r.size = 0 ∨ r.readLimit = 0) : r.Stuck := by
  by_cases empty : r.size = 0
  · cases ok.shape with
    | straight order fits size =>
      have start := ok.start empty order
      omega
    | wrapped _ order fits room size => omega
  · exact (ok.shape.atEnd empty (nothing.resolve_left empty)).1

end Rings

/-! ## The loops -/

section Loops

variable {up nonblock : Bool} {r r' : Ring} {fuel count : Nat} {got : Bytes}

/-- How a read ends: `more` is what it took from the ring. -/
structure ReadDone (up : Bool) (r : Ring) (count : Nat) (got : Bytes) (r' : Ring)
    (e : ReadEnd) (more : Bytes) : Prop where
  shape : r'.Shape
  ok : up = true → r'.Ok
  content : r.content = more ++ r'.content
  returns : ∀ all, e = .returns all → all = got ++ more
  again : e = .again → got ++ more = []
  sleeps : ∀ left all, e = .sleeps left all → all = got ++ more ∧ left ≠ 0
  found : up = true → count ≠ 0 → r.Ok → ¬r.Stuck → e ≠ .returns []

theorem ReadDone.reset (shape : r.Shape)
    (found : up = true → count ≠ 0 → r.Ok → ¬r.Stuck → got ≠ []) :
    ReadDone up r count got r.reset (.returns got) [] where
  shape := shape.reset.1.shape
  ok _ := shape.reset.1
  content := shape.reset.2.symm
  returns := by simp
  again := nofun
  sleeps := nofun
  found alive some ok free same := found alive some ok free (ReadEnd.returns.inj same)

/-- The rest of a read, after it has taken `bytes`. -/
theorem ReadDone.cons {count' : Nat} {q : Ring} {e : ReadEnd} {bytes more : Bytes}
    (done : ReadDone up q count' (got ++ bytes) r' e more)
    (content : r.content = bytes ++ q.content)
    (found : up = true → count ≠ 0 → r.Ok → ¬r.Stuck → bytes ≠ []) :
    ReadDone up r count got r' e (bytes ++ more) where
  shape := done.shape
  ok := done.ok
  content := by rw [content, done.content, append_assoc]
  returns all same := by rw [done.returns all same, append_assoc]
  again same := by rw [← append_assoc, done.again same]
  sleeps left all same := by
    obtain ⟨rfl, some⟩ := done.sleeps left all same
    exact ⟨append_assoc .., some⟩
  found alive some ok free same := by
    have nothing := done.returns [] same
    rw [eq_comm, append_eq_nil_iff, append_eq_nil_iff] at nothing
    exact found alive some ok free nothing.1.2

/-- **Reading.** With enough fuel a read ends, and has taken the front of the queue. -/
theorem readLoop_done (up nonblock : Bool) (got : Bytes) (shape : r.Shape)
    (enough : 2 * count + (if r.readoff = pipeBuf then 1 else 0) < fuel) :
    ∃ r' e more, readLoop up nonblock fuel r count got = some (r', e) ∧
      ReadDone up r count got r' e more := by
  induction fuel generalizing r count got with
  | zero => omega
  | succ fuel ih =>
    rw [readLoop]
    split
    case isTrue none => exact ⟨_, _, _, rfl, .reset shape fun _ some => absurd none some⟩
    case isFalse some =>
      simp only
      split
      case isTrue more =>
        obtain ⟨shape', content⟩ := shape.take more.1 more.2 (Nat.min_le_left _ _)
        have fewer : 2 * (count - min r.readLimit count) +
            (if (r.take (min r.readLimit count)).readoff = pipeBuf then 1 else 0) < fuel := by
          split <;> omega
        obtain ⟨r', e, rest, ran, done⟩ := ih _ shape' fewer
        refine ⟨r', e, _, ran, done.cons content fun _ _ _ _ empty => more.2 ?_⟩
        simpa [Ring.peek] using congrArg List.length empty
      case isFalse nothing =>
        have nothing : r.size = 0 ∨ r.readLimit = 0 := by omega
        split
        case isTrue down =>
          have dead : up ≠ true := by simp [down]
          split
          case isTrue full =>
            -- the peer is gone: the reader wraps its offset itself
            obtain ⟨stuck, shape', content, start⟩ :=
              shape.atEnd full (nothing.resolve_left full)
            rw [if_pos stuck.1] at enough
            have fewer : 2 * count + (if r.wrapRead.readoff = pipeBuf then 1 else 0) < fuel := by
              rw [start, if_neg (by decide)]
              omega
            obtain ⟨r', e, rest, ran, done⟩ := ih got shape' fewer
            rw [← append_nil got] at done
            exact ⟨r', e, _, ran, done.cons content.symm fun alive => absurd alive dead⟩
          case isFalse =>
            refine ⟨r, _, [], rfl, shape, fun alive => absurd alive dead, rfl, by simp, nofun,
              nofun, fun alive => absurd alive dead⟩
        case isFalse =>
          split
          case isTrue moved =>
            refine ⟨_, _, _, rfl, .reset shape fun _ _ ok free => ?_⟩
            exact absurd (ok.stuck moved nothing) free
          case isFalse start =>
            obtain ⟨ok, empty⟩ := shape.empty (Decidable.not_not.mp start) nothing
            split
            · split
              case isTrue some => exact ⟨_, _, _, rfl, .reset shape fun _ _ _ _ => some⟩
              case isFalse none =>
                refine ⟨r, _, [], rfl, shape, fun _ => ok, rfl, nofun, fun _ => ?_, nofun,
                  fun _ _ _ _ => nofun⟩
                simpa using none
            · refine ⟨r, _, [], rfl, shape, fun _ => ok, rfl, nofun, nofun, ?_,
                fun _ _ _ _ => nofun⟩
              rintro left all ⟨⟩
              exact ⟨(append_nil got).symm, some⟩

/-- **Writing.** With enough fuel a write ends, and has appended what it took. -/
theorem writeLoop_done (up nonblock : Bool) {rest : Bytes} (written : Nat) (taken : Bytes)
    (ok : r.Shape ∧ (up = true → r.Ok)) (enough : rest.length < fuel) :
    ∃ r' e more, writeLoop up nonblock fuel r rest written taken = some (r', e, taken ++ more) ∧
      (r'.Shape ∧ (up = true → r'.Ok)) ∧ r'.content = r.content ++ more := by
  induction fuel generalizing r rest written taken with
  | zero => omega
  | succ fuel ih =>
    have stay : ∀ e : WriteEnd, ∃ r' e' more,
        some (r, e, taken) = some (r', e', taken ++ more) ∧
        (r'.Shape ∧ (up = true → r'.Ok)) ∧ r'.content = r.content ++ more :=
      fun e => ⟨r, e, [], by rw [append_nil], ok, by rw [append_nil]⟩
    rw [writeLoop]
    split
    · exact stay _
    split
    case isTrue => exact stay _
    case isFalse alive =>
      have alive : up = true := by simpa using alive
      simp only
      generalize size : min rest.length (r.writeLimit - r.writeoff) = n
      split
      case isTrue more =>
        have copied : (rest.take n).length = n := by
          rw [length_take]
          omega
        have fits : (rest.take n).length ≤ r.writeLimit - r.writeoff := by omega
        obtain ⟨ok', content⟩ := (ok.2 alive).append (by omega) fits
        have fewer : (rest.drop n).length < fuel := by
          rw [length_drop]
          omega
        obtain ⟨r', e, later, ran, okLast, last⟩ :=
          ih (written + n) (taken ++ rest.take n) ⟨ok'.shape, fun _ => ok'⟩ fewer
        refine ⟨r', e, rest.take n ++ later, ?_, okLast, ?_⟩
        · rw [ran, append_assoc]
        · rw [last, content, append_assoc]
      case isFalse =>
        split
        · split
          · exact stay _
          · exact stay _
        · exact stay _

end Loops

/-! ## The stream -/

structure StreamInv (up : Bool) (s : Stream) : Prop where
  shape : s.ring.Shape
  ok : up = true → s.ring.Ok
  order : s.accepted = s.returned ++ s.held ++ s.ring.content
  ids : (s.readers.map Reader.id).Nodup
  one : ∀ r ∈ s.readers, ∀ r' ∈ s.readers, r.got ≠ [] → r'.got ≠ [] → r.id = r'.id
  left : ∀ r ∈ s.readers, r.count ≠ 0
  found : ∀ reply ∈ s.replies, reply.up = true → reply.asked ≠ 0 → reply.bytes ≠ []

/-- `reader` may run: no other reader holds bytes, or there is nothing to overtake with. -/
inductive Turn (s : Stream) (reader : Reader) : Prop
  | alone (others : ∀ r ∈ s.others reader.id, r.got = []) (held : s.held = reader.got)
  | idle (none : reader.got = []) (size : s.ring.size = 0)
      (held : s.held = (s.others reader.id).flatMap Reader.got)

open UnixStream.Stream

section Streams

variable {up : Bool} {s s' : Stream} {reader : Reader}

theorem others_eq {pre post : List Reader} (split : s.readers = pre ++ reader :: post)
    (ids : (s.readers.map Reader.id).Nodup) : s.others reader.id = pre ++ post := by
  rw [split, map_append, map_cons, nodup_middle, nodup_cons, ← map_append] at ids
  have keep : ∀ r ∈ pre ++ post, decide (r.id ≠ reader.id) = true := by
    intro r inside
    refine decide_eq_true fun same => ids.1 ?_
    rw [← same]
    exact mem_map_of_mem inside
  rw [others, split, filter_append, filter_cons_of_neg (by simp),
    ← filter_append, filter_eq_self.mpr keep]

/-- A reader that sleeps may run when it is in turn. -/
theorem StreamInv.turn (inv : StreamInv up s) (member : reader ∈ s.readers)
    (inTurn : InTurn s reader.id) : Turn s reader := by
  obtain ⟨pre, post, split⟩ := append_of_mem member
  have others := others_eq split inv.ids
  have held : s.held = pre.flatMap Reader.got ++ (reader.got ++ post.flatMap Reader.got) := by
    rw [Stream.held, split, flatMap_append, flatMap_cons]
  have alone : (∀ r ∈ s.others reader.id, r.got = []) → Turn s reader := by
    intro empty
    refine .alone empty ?_
    rw [others] at empty
    have before := flatMap_eq_nil_iff.mpr fun r inside => empty r (mem_append_left _ inside)
    have behind := flatMap_eq_nil_iff.mpr fun r inside => empty r (mem_append_right _ inside)
    rw [held, before, behind, nil_append, append_nil]
  rcases inTurn with size | empty
  · by_cases none : reader.got = []
    · refine .idle none size ?_
      rw [held, others, none, nil_append, flatMap_append]
    · refine alone fun r inside => ?_
      rw [Stream.others, mem_filter, decide_eq_true_eq] at inside
      by_contra some
      exact inside.2 (inv.one r inside.1 reader member some none)
  · exact alone empty

theorem StreamInv.turn_new (fresh : s.reader? reader.id = none)
    (none : reader.got = []) (inTurn : InTurn s reader.id) : Turn s reader := by
  have all : s.others reader.id = s.readers := by
    rw [reader?, List.find?_eq_none] at fresh
    exact filter_eq_self.mpr fun r inside => by simpa using fresh r inside
  rcases inTurn with size | empty
  · exact .idle none size (by rw [all]; rfl)
  · refine .alone empty ?_
    rw [none, held, flatMap_eq_nil_iff]
    exact fun r inside => empty r (all ▸ inside)

/-- What was accepted, when `reader` has taken `more`. -/
theorem Turn.order (inv : StreamInv up s) (turn : Turn s reader) {r' : Ring} {more : Bytes}
    (content : s.ring.content = more ++ r'.content) :
    s.accepted = s.returned ++ ((reader.got ++ more) ++
      (s.others reader.id).flatMap Reader.got) ++ r'.content := by
  rw [inv.order]
  cases turn with
  | alone others held =>
    rw [flatMap_eq_nil_iff.mpr others, held, content]
    simp
  | idle none size held =>
    have empty : s.ring.content = [] := by rw [← length_eq_zero_iff, inv.shape.length_content, size]
    rw [empty, eq_comm, append_eq_nil_iff] at content
    rw [empty, held, none, content.1, content.2]
    simp

/-- A read that runs keeps the stream in order. -/
theorem StreamInv.runRead (inv : StreamInv up s) (turn : Turn s reader) (nonblock : Bool)
    (found : up = true → reader.asked ≠ 0 → reader.count ≠ 0 ∧ (reader.got = [] → ¬s.ring.Stuck))
    (ran : s.runRead up nonblock reader = some s') : StreamInv up s' := by
  have enough : 2 * reader.count + (if s.ring.readoff = pipeBuf then 1 else 0) <
      2 * reader.count + 2 := by
    split <;> omega
  obtain ⟨r', e, more, ends, done⟩ := readLoop_done up nonblock reader.got inv.shape enough
  have order := turn.order inv done.content
  have fewer : s.others reader.id ⊆ s.readers := filter_subset_self s.readers
  have ids : ((s.others reader.id).map Reader.id).Nodup :=
    inv.ids.sublist (filter_sublist.map Reader.id)
  have one : ∀ r ∈ s.others reader.id, ∀ r' ∈ s.others reader.id, r.got ≠ [] → r'.got ≠ [] →
      r.id = r'.id :=
    fun r inside r' inside' => inv.one r (fewer inside) r' (fewer inside')
  have left : ∀ r ∈ s.others reader.id, r.count ≠ 0 := fun r inside => inv.left r (fewer inside)
  simp only [Stream.runRead, unixRead, ends, Option.map_some, Option.some.injEq] at ran
  cases e with
  | returns all =>
    subst ran
    refine ⟨done.shape, done.ok, ?_, ids, one, left,
      forall_mem_append.mpr ⟨inv.found, forall_mem_singleton.mpr ?_⟩⟩
    · rw [order, done.returns all rfl]
      simp [returned, Stream.held]
    · intro alive some empty
      obtain ⟨count, free⟩ := found alive some
      have nothing := done.returns all rfl
      rw [show all = [] from empty, eq_comm, append_eq_nil_iff] at nothing
      exact done.found alive count (inv.ok alive) (free nothing.1) (congrArg ReadEnd.returns empty)
  | again =>
    subst ran
    refine ⟨done.shape, done.ok, ?_, ids, one, left, inv.found⟩
    rw [order, done.again rfl]
    rfl
  | sleeps count all =>
    subst ran
    obtain ⟨rfl, some⟩ := done.sleeps count all rfl
    refine ⟨done.shape, done.ok, ?_, ?_, ?_, forall_mem_cons.mpr ⟨some, left⟩, inv.found⟩
    · rw [order]
      simp [returned, Stream.held]
    · rw [map_cons, nodup_cons]
      refine ⟨fun inside => ?_, ids⟩
      obtain ⟨r, other, same⟩ := mem_map.mp inside
      rw [Stream.others, mem_filter, decide_eq_true_eq] at other
      exact other.2 same
    · -- only `reader` may hold bytes, unless it has none
      cases turn with
      | alone others held =>
        rintro r (_ | ⟨_, inside⟩) r' (_ | ⟨_, inside'⟩) some some'
        · rfl
        · exact absurd (others r' inside') some'
        all_goals exact absurd (others r inside) some
      | idle none size held =>
        have empty : s.ring.content = [] := by
          rw [← length_eq_zero_iff, inv.shape.length_content, size]
        have nothing := done.content
        rw [empty, eq_comm, append_eq_nil_iff] at nothing
        have none := append_eq_nil_iff.mpr ⟨none, nothing.1⟩
        rintro r (_ | ⟨_, inside⟩) r' (_ | ⟨_, inside'⟩) some some'
        iterate 2 exact absurd none some
        · exact absurd none some'
        · exact one r inside r' inside' some some'

theorem StreamInv.runWrite (inv : StreamInv up s) (nonblock : Bool) (writer : Writer)
    (ran : s.runWrite up nonblock writer = some s') : StreamInv up s' := by
  obtain ⟨r', e, more, ends, ok, content⟩ := writeLoop_done up nonblock writer.written []
    ⟨inv.shape, inv.ok⟩ (Nat.lt_succ_self writer.rest.length)
  simp only [Stream.runWrite, unixWrite, ends, Option.map_some, Option.some.injEq] at ran
  subst ran
  refine ⟨ok.1, ok.2, ?_, inv.ids, inv.one, inv.left, inv.found⟩
  show s.accepted ++ ([] ++ more) = s.returned ++ s.held ++ r'.content
  rw [inv.order, content]
  simp

theorem reader?_some {id : Nat} (found : s.reader? id = some reader) :
    reader ∈ s.readers ∧ reader.id = id :=
  ⟨mem_of_find?_eq_some found, by simpa using List.find?_some found⟩

/-- A read that is interrupted before it has taken anything. -/
theorem StreamInv.interrupt (inv : StreamInv up s) (member : reader ∈ s.readers)
    (none : reader.got = []) :
    StreamInv up { s with readers := s.others reader.id } := by
  have fewer : s.others reader.id ⊆ s.readers := filter_subset_self s.readers
  obtain ⟨pre, post, split⟩ := append_of_mem member
  refine ⟨inv.shape, inv.ok, ?_, inv.ids.sublist (filter_sublist.map Reader.id),
    fun r inside r' inside' => inv.one r (fewer inside) r' (fewer inside'),
    fun r inside => inv.left r (fewer inside), inv.found⟩
  show s.accepted = s.returned ++ (s.others reader.id).flatMap Reader.got ++ s.ring.content
  rw [inv.order, others_eq split inv.ids, held, split]
  simp [none]

/-- **A safe action keeps a stream in order.** -/
theorem StreamInv.step (inv : StreamInv up s) {a : Action} (safe : SafeAction up s a)
    (taken : s.step up a = some s') : StreamInv up s' := by
  cases a with
  | read id count nonblock =>
    rw [Stream.step, Option.ite_none_right_eq_some] at taken
    refine inv.runRead (StreamInv.turn_new taken.1 rfl safe.2) nonblock ?_ taken.2
    exact fun alive some => ⟨some, fun _ => safe.1 alive some⟩
  | wakeReader id =>
    rw [Stream.step, Option.bind_eq_some_iff] at taken
    obtain ⟨reader, found, ran⟩ := taken
    obtain ⟨member, rfl⟩ := reader?_some found
    obtain ⟨free, inTurn⟩ := safe reader found
    refine inv.runRead (inv.turn member inTurn) false ?_ ran
    exact fun alive _ => ⟨inv.left reader member, free alive⟩
  | interruptReader id =>
    rw [Stream.step, Option.map_eq_some_iff] at taken
    obtain ⟨reader, found, rfl⟩ := taken
    obtain ⟨member, rfl⟩ := reader?_some found
    exact inv.interrupt member (safe reader found)
  | write id bytes nonblock =>
    rw [Stream.step, Option.ite_none_right_eq_some] at taken
    exact inv.runWrite nonblock _ taken.2
  | wakeWriter id =>
    rw [Stream.step, Option.bind_eq_some_iff] at taken
    obtain ⟨writer, -, ran⟩ := taken
    exact inv.runWrite false writer ran
  | interruptWriter id =>
    rw [Stream.step, Option.map_eq_some_iff] at taken
    obtain ⟨writer, -, rfl⟩ := taken
    exact ⟨inv.shape, inv.ok, inv.order, inv.ids, inv.one, inv.left, inv.found⟩

end Streams

/-! ## Runs -/

def Inv (c : Pair) : Prop := ∀ e, StreamInv c.up (c.streams e)

theorem inv_step (c : Pair) (a : Label) (c' : Pair) (inv : Inv c) (safe : SafeLabel c a)
    (taken : step c a = some c') : Inv c' := by
  cases a with
  | on e a =>
    rw [step, Option.map_eq_some_iff] at taken
    obtain ⟨s, stepped, rfl⟩ := taken
    intro e'
    show StreamInv c.up (Function.update c.streams e s e')
    by_cases same : e' = e
    · rw [same, Function.update_self]
      exact (inv e).step safe stepped
    · rw [Function.update_of_ne same]
      exact inv e'
  | disconnect =>
    cases taken
    exact fun e => { inv e with ok := nofun }

/-- A connection that was just made: its rings are empty, whatever is in their memory. -/
structure Fresh (c : Pair) : Prop where
  offsets : ∀ e, (c.streams e).ring.readoff = 0 ∧ (c.streams e).ring.writeoff = 0 ∧
    (c.streams e).ring.size = 0
  quiet : ∀ e, (c.streams e).readers = [] ∧ (c.streams e).accepted = [] ∧ (c.streams e).replies = []

theorem Fresh.inv {c : Pair} (fresh : Fresh c) : Inv c := by
  intro e
  obtain ⟨read, write, size⟩ := fresh.offsets e
  obtain ⟨readers, accepted, replies⟩ := fresh.quiet e
  have shape : (c.streams e).ring.Shape := .straight (by omega) (by omega) (by omega)
  refine ⟨shape, fun _ => ⟨shape, fun _ _ => read⟩, ?_, ?_, ?_, ?_, ?_⟩
  · simp [returned, held, readers, accepted, replies, Ring.content, size]
  · simp [readers]
  · simp [readers]
  · simp [readers]
  · simp [replies]

/-- **The stream is in order.** After every run of safe steps, on both ends: the bytes that reads
returned, then those that sleeping reads hold, then those in the ring are the bytes that writes
accepted; no read of at least one byte returned nothing while the connection was up; and every call
ends. -/
theorem stream_in_order {start c : Pair} {labels : List Label} (fresh : Fresh start)
    (safe : Guarded step SafeLabel start labels) (ran : run step start labels = some c)
    (e : Bool) :
    (c.streams e).accepted =
        (c.streams e).returned ++ (c.streams e).held ++ (c.streams e).ring.content ∧
      (∀ reply ∈ (c.streams e).replies, reply.up = true → reply.asked ≠ 0 → reply.bytes ≠ []) ∧
      (∀ nonblock count got, (unixRead c.up nonblock (c.streams e).ring count got).isSome) ∧
      ∀ nonblock rest written,
        (unixWrite c.up nonblock (c.streams e).ring rest written).isSome := by
  have inv := run_inv inv_step fresh.inv safe ran e
  refine ⟨inv.order, inv.found, fun nonblock count got => ?_, fun nonblock rest written => ?_⟩
  · have enough : 2 * count + (if (c.streams e).ring.readoff = pipeBuf then 1 else 0) <
        2 * count + 2 := by
      split <;> omega
    obtain ⟨r', e', more, ends, -⟩ := readLoop_done c.up nonblock got inv.shape enough
    simp [unixRead, ends]
  · obtain ⟨r', e', more, ends, -⟩ := writeLoop_done c.up nonblock written []
      ⟨inv.shape, inv.ok⟩ (Nat.lt_succ_self rest.length)
    simp [unixWrite, ends]

/-! ## Poles -/

section Poles

instance (r : Ring) : Decidable r.Stuck := inferInstanceAs (Decidable (_ ∧ _))

instance (s : Stream) (id : Nat) : Decidable (InTurn s id) := by
  unfold InTurn
  infer_instance

instance (up : Bool) (s : Stream) (a : Action) : Decidable (SafeAction up s a) := by
  cases a <;> unfold SafeAction <;> infer_instance

instance (c : Pair) (a : Label) : Decidable (SafeLabel c a) := by
  cases a <;> unfold SafeLabel <;> infer_instance

theorem socketpair_fresh : Fresh socketpair :=
  ⟨fun _ => ⟨rfl, rfl, rfl⟩, fun _ => ⟨rfl, rfl, rfl⟩⟩

/-- A reader waits for what the other end writes; the answer is read after the disconnection. -/
def dialogRun : List Label :=
  [.on true (.read 1 4 false), .on true (.write 2 [10, 11, 12, 13, 14] false),
    .on true (.wakeReader 1), .on false (.write 1 [20, 21] true), .disconnect,
    .on false (.read 2 8 false), .on true (.read 1 8 true)]

theorem stream_in_order_dialogRun :
    ∃ c, run step socketpair dialogRun = some c ∧
      (c.streams true).returned = [10, 11, 12, 13, 14] ∧
      (c.streams true).accepted = (c.streams true).returned ++ (c.streams true).held ++
        (c.streams true).ring.content := by
  obtain ⟨c, ran⟩ : ∃ c, run step socketpair dialogRun = some c :=
    Option.isSome_iff_exists.mp (by decide +kernel)
  have all : (run step socketpair dialogRun).any
      (fun c => (c.streams true).returned = [10, 11, 12, 13, 14]) = true := by
    decide +kernel
  rw [ran, Option.any_some, decide_eq_true_eq] at all
  exact ⟨c, ran, all, (stream_in_order socketpair_fresh
    (Guarded.of_decide (by decide +kernel)) ran true).1⟩

/-- The ring is filled, drained a little, filled at its start, and read up to its end. -/
def wrapRun : List Label :=
  [.on true (.write 2 (List.replicate 4096 1) true), .on true (.read 1 100 true),
    .on true (.write 2 (List.replicate 50 2) true), .on true (.read 1 3996 true),
    .on true (.read 1 50 true)]

/-- A blocking read takes the whole ring, sleeps for more and is interrupted. -/
def signalRun : List Label :=
  [.on true (.write 2 (List.replicate 4096 1) true), .on true (.read 1 5000 false),
    .on true (.interruptReader 1)]

/-- A read of the living connection returns nothing though 50 bytes are in the ring, and a read that
is interrupted loses what it has consumed. -/
theorem read_returns_nothing :
    (run step socketpair wrapRun).any (fun c =>
      c.up ∧ (c.streams true).replies.getLast? = some ⟨50, true, []⟩ ∧
        (c.streams true).ring.size = 50) = true ∧
    (run step socketpair signalRun).any (fun c =>
      (c.streams true).accepted.length = 4096 ∧ (c.streams true).returned = [] ∧
        (c.streams true).held = [] ∧ (c.streams true).ring.content = []) = true := by
  decide +kernel

end Poles

end Argentum.Net.UnixStream
