/-
# Fs.Pipe — the byte queue of a pipe

A pipe is a ring of `PIPE_BUF` bytes with the offsets of the stream sockets (`Net.UnixStream`).
`pipefs_read` copies once, `pipefs_write` until all of its bytes are in the ring. A step is a read
or one pass of the loop of a write, so that calls interleave at every copy.

* `pipe_is_queue`: what was read, then the ring, is what was written, after every run.
* `read_progress`: a pipe that holds bytes is read, except where the read offset stands at the end
  of the ring while there are writers: the call then fails or spins.
-/
import Argentum.Net.UnixStream
import Mathlib.Order.Basic

namespace Argentum.Fs.Pipe

open Lib.Machine Net.UnixStream List

/-! ## The calls -/

/-- The copy of `pipefs_read`. -/
def copyOut (r : Ring) (n : Nat) : Ring :=
  { r with
    readoff := r.readoff + n
    size := r.size - n
    writeoff := if r.writeoff ≥ pipeBuf then 0 else r.writeoff }

/-- The copy of `pipefs_write`. -/
def copyIn (r : Ring) (bytes : Bytes) : Ring :=
  { data := Lib.ByteMap.put r.data r.writeoff bytes
    writeoff := r.writeoff + bytes.length
    size := r.size + bytes.length
    readoff := if r.readoff ≥ pipeBuf then 0 else r.readoff }

/-- The loop of `pipefs_read`: the bytes that it returns, `none` where it sleeps (and starts again
when it is woken) or returns `-EAGAIN`. -/
def readLoop (writers : Nat) (nonblock : Bool) (count : Nat) : Nat → Ring →
    Option (Ring × Option Bytes)
  | 0, _ => none
  | fuel + 1, r =>
    if count = 0 then some (r.reset, some [])
    else
      let n := min r.readLimit count
      if r.size ≠ 0 ∧ n ≠ 0 then some ((copyOut r n).reset, some (r.peek n))
      else if writers ≠ 0 then
        -- `-EAGAIN`, or the look after `sleep_arm`
        if nonblock ∨ r.size = 0 then some (r, none)
        else readLoop writers nonblock count fuel r
      else if r.size ≠ 0 ∧ r.readoff ≥ pipeBuf then
        readLoop writers nonblock count fuel { r with readoff := 0 }
      else some (r.reset, some [])

/-! ## The machine -/

/-- The pipe, and the bytes copied in and out. -/
structure State where
  ring : Ring
  readers : Nat
  writers : Nat
  accepted : Bytes
  returned : Bytes

inductive Label
  | opened (readers writers : Nat)
  | read (nonblock : Bool) (count : Nat)
  | write (rest : Bytes)

/-- A write passes its loop with `rest` to copy; where nothing fits it sleeps or fails. -/
def step (s : State) : Label → Option State
  | .opened readers writers => some { s with readers := readers, writers := writers }
  | .read nonblock count =>
    (readLoop s.writers nonblock count 2 s.ring).map fun done =>
      { s with ring := done.1, returned := s.returned ++ done.2.getD [] }
  | .write rest =>
    let n := min rest.length (s.ring.writeLimit - s.ring.writeoff)
    if s.readers ≠ 0 ∧ n ≠ 0 ∧ n ≤ pipeBuf then
      some { s with ring := copyIn s.ring (rest.take n), accepted := s.accepted ++ rest.take n }
    else some s

/-- A queue of what was accepted and not returned. -/
structure Queue (s : State) : Prop where
  ok : s.ring.Ok
  order : s.accepted = s.returned ++ s.ring.content

/-- A new pipe, whatever is in its memory. -/
def newPipe (data : Nat → UInt8) (readers writers : Nat) : State :=
  ⟨⟨0, 0, 0, data⟩, readers, writers, [], []⟩

/-! ## Steps -/

section Queue

variable {r r' : Ring} {writers count fuel : Nat} {nonblock : Bool} {e : Option Bytes}

theorem offsets_le (shape : r.Shape) :
    r.readoff ≤ pipeBuf ∧ r.writeoff ≤ pipeBuf ∧ r.size ≤ pipeBuf := by
  cases shape <;> omega

/-- A read offset at the end of the ring is taken for an empty ring. -/
theorem readLimit_end (shape : r.Shape) (last : r.readoff = pipeBuf) : r.readLimit = 0 := by
  rw [Ring.readLimit_wrapped (last ▸ (offsets_le shape).2.1), last, Nat.sub_self]

/-- A read takes the front of the queue. -/
theorem readLoop_takes (ok : r.Ok) (ran : readLoop writers nonblock count fuel r = some (r', e)) :
    r'.Ok ∧ r.content = e.getD [] ++ r'.content := by
  induction fuel generalizing r with
  | zero => cases ran
  | succ fuel ih =>
    obtain ⟨read, write, -⟩ := offsets_le ok.shape
    obtain ⟨reset, same⟩ := ok.shape.reset
    simp only [readLoop] at ran
    split_ifs at ran with _ more _ _ wrap
    · cases ran
      exact ⟨reset, same.symm⟩
    · cases ran
      obtain ⟨shape', content⟩ := ok.shape.take more.1 more.2 (Nat.min_le_left _ _)
      have copied : copyOut r (min r.readLimit count) = r.take (min r.readLimit count) := by
        simp only [copyOut, Ring.take, ge_iff_le, write.ge_iff_eq]
      rw [copied]
      exact ⟨shape'.reset.1, by rw [content, shape'.reset.2]; rfl⟩
    · cases ran
      exact ⟨ok, rfl⟩
    · exact ih ok ran
    · -- no writer is left: the reader wraps its own offset
      have last := Nat.le_antisymm read wrap.2
      obtain ⟨-, shape', content, -⟩ := ok.shape.atEnd wrap.1 (readLimit_end ok.shape last)
      rw [Ring.wrapRead, if_pos last] at shape' content
      rw [← content]
      exact ih ⟨shape', fun empty => absurd empty wrap.1⟩ ran
    · cases ran
      exact ⟨reset, same.symm⟩

/-- A read copies at once if it may. -/
theorem readLoop_copies (some : r.size ≠ 0) (pos : count ≠ 0) (limit : r.readLimit ≠ 0) :
    ∃ r' bytes, bytes ≠ [] ∧
      readLoop writers nonblock count (fuel + 1) r = .some (r', .some bytes) := by
  have more : min r.readLimit count ≠ 0 := by omega
  rw [readLoop, if_neg pos, if_pos ⟨some, more⟩]
  refine ⟨_, _, fun empty => more ?_, rfl⟩
  simpa [Ring.peek] using congrArg List.length empty

/-- A reader whose offset is at the end never gets past its loop while there are writers. -/
theorem readLoop_stuck (pos : count ≠ 0) (limit : r.readLimit = 0) (busy : writers ≠ 0)
    (bytes : Bytes) :
    readLoop writers nonblock count fuel r ≠ some (r', some bytes) := by
  induction fuel with
  | zero => nofun
  | succ fuel ih =>
    have none : ¬(r.size ≠ 0 ∧ min r.readLimit count ≠ 0) := by omega
    rw [readLoop, if_neg pos, if_neg none, if_pos busy]
    split
    · nofun
    · exact ih

theorem queue_step (s : State) (l : Label) (s' : State) (queue : Queue s)
    (taken : step s l = some s') : Queue s' := by
  cases l with
  | opened readers writers =>
    cases taken
    exact ⟨queue.ok, queue.order⟩
  | read nonblock count =>
    rw [step, Option.map_eq_some_iff] at taken
    obtain ⟨⟨r, e⟩, ran, rfl⟩ := taken
    obtain ⟨ok, content⟩ := readLoop_takes queue.ok ran
    exact ⟨ok, by rw [queue.order, content, append_assoc]⟩
  | write rest =>
    simp only [step] at taken
    generalize size : min rest.length (s.ring.writeLimit - s.ring.writeoff) = n at taken
    split at taken
    · rename_i more
      cases taken
      -- the offset cannot have passed the end, so `>=` is `=`
      have copied : copyIn s.ring (rest.take n) = s.ring.append (rest.take n) := by
        simp only [copyIn, Ring.append, ge_iff_le, (offsets_le queue.ok.shape).1.ge_iff_eq]
      have length : (rest.take n).length = n := by
        rw [length_take]
        omega
      obtain ⟨ok, content⟩ := queue.ok.append (length ▸ more.2.1) (by omega)
      exact ⟨copied ▸ ok, by simp only [copied, content, queue.order, append_assoc]⟩
    · cases taken
      exact queue

theorem newPipe_queue (data : Nat → UInt8) (readers writers : Nat) :
    Queue (newPipe data readers writers) :=
  ⟨⟨.straight (Nat.le_refl 0) (Nat.zero_le _) rfl, fun _ _ => rfl⟩, rfl⟩

end Queue

/-! ## Runs -/

section Runs

variable {data : Nat → UInt8} {readers writers : Nat} {s : State} {labels : List Label}
  (ran : run step (newPipe data readers writers) labels = some s)
include ran

/-- **A pipe is a queue.** After every run, the bytes that reads returned and then the ring from the
read offset are the bytes that writes copied; `i_size` counts the ring and stays in `PIPE_BUF`, as
the offsets do. -/
theorem pipe_is_queue :
    s.returned ++ s.ring.content = s.accepted ∧ s.ring.size = s.ring.content.length ∧
      s.ring.size ≤ pipeBuf ∧ s.ring.readoff ≤ pipeBuf ∧ s.ring.writeoff ≤ pipeBuf := by
  obtain ⟨ok, order⟩ := run_keeps queue_step (newPipe_queue _ _ _) ran
  obtain ⟨read, write, size⟩ := offsets_le ok.shape
  exact ⟨order.symm, ok.shape.length_content.symm, size, read, write⟩

/-- **Progress of a reader.** A read of a pipe that holds bytes returns some of them, exactly if
there is no writer or the read offset is not at the end of the ring. -/
theorem read_progress (some : s.ring.size ≠ 0) {count : Nat} (pos : count ≠ 0)
    (nonblock : Bool) :
    (∃ fuel r bytes, bytes ≠ [] ∧
        readLoop s.writers nonblock count fuel s.ring = .some (r, .some bytes)) ↔
      ¬(s.ring.readoff = pipeBuf ∧ s.writers ≠ 0) := by
  have shape := (run_keeps queue_step (newPipe_queue _ _ _) ran).ok.shape
  constructor
  · rintro ⟨fuel, r, bytes, -, ends⟩ ⟨last, busy⟩
    exact readLoop_stuck pos (readLimit_end shape last) busy bytes ends
  · intro free
    by_cases limit : s.ring.readLimit = 0
    · -- no writer is left: the reader wraps its offset and comes back
      obtain ⟨⟨last, -⟩, -, -, -⟩ := shape.atEnd some limit
      have quiet : s.writers = 0 := by tauto
      have none : ¬(s.ring.size ≠ 0 ∧ min s.ring.readLimit count ≠ 0) := by omega
      have limit' : Ring.readLimit { s.ring with readoff := 0 } ≠ 0 := by
        simp only [Ring.readLimit, pipeBuf]
        split_ifs <;> omega
      refine ⟨2, ?_⟩
      rw [readLoop, if_neg pos, if_neg none, if_neg (by omega), if_pos ⟨some, by omega⟩]
      exact readLoop_copies (r := { s.ring with readoff := 0 }) some pos limit'
    · exact ⟨1, readLoop_copies some pos limit⟩

end Runs

/-! ## Poles -/

/-- The ring is filled, drained a little and filled at its start. -/
def refill : List Label :=
  [.write (replicate 4096 1), .read true 100, .write (replicate 50 2)]

theorem pipe_is_queue_refill : ∃ s, run step (newPipe (fun _ => 0) 1 1) refill = some s ∧
    s.returned ++ s.ring.content = s.accepted :=
  exists_run (by decide +kernel) fun _ ran => (pipe_is_queue ran).1

theorem read_progress_refill : ∃ s, run step (newPipe (fun _ => 0) 1 1) refill = some s ∧
    ∃ fuel r bytes, bytes ≠ [] ∧ readLoop s.writers true 200 fuel s.ring = some (r, some bytes) := by
  have ends : (run step (newPipe (fun _ => 0) 1 1) refill).any
      (fun s => s.ring.size ≠ 0 ∧ s.ring.readoff ≠ pipeBuf) = true := by decide +kernel
  obtain ⟨s, ran, found⟩ := (Option.any_eq_true _ _).mp ends
  obtain ⟨some, inside⟩ := of_decide_eq_true found
  exact ⟨s, ran, (read_progress ran some (by decide) true).mpr fun stuck => inside stuck.1⟩

/-- 50 bytes are in the pipe: a read fails, or spins. -/
theorem read_stuck :
    (run step (newPipe (fun _ => 0) 1 1) (refill ++ [.read true 3996])).any (fun s =>
      s.ring.size = 50 ∧ s.writers = 1 ∧
      (readLoop s.writers true 1 2 s.ring).map Prod.snd = some none ∧
      (readLoop s.writers false 1 1000 s.ring).isNone) = true := by
  decide +kernel

end Argentum.Fs.Pipe
