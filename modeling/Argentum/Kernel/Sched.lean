/-
# Kernel.Sched — the process `do_sched` leaves running

`doSched` keeps a running process with quantum left, otherwise takes the best
real-time process, otherwise the largest quantum, refilling all quanta while
that is 0. `doSched_dominant_iff`: a runnable real-time process of the highest
priority runs afterwards unless the early exit keeps another one.
-/
import Mathlib.Data.List.Basic

namespace Argentum.Kernel.Sched

inductive Policy where
  | other | fifo | rr
  deriving DecidableEq

structure Proc where
  policy : Policy := .other
  rtPriority : Int := 0
  cpuCount : Int := 0
  priority : Int := 20
  /-- `state == PROC_RUNNING` -/
  running : Bool := true

/-- Slot 0 is `IDLE`; `sys_sched_setscheduler` cannot name it. -/
structure World where
  table : Nat → Proc
  runQueue : List Nat
  current : Nat
  idle : (table 0).policy = .other

namespace World

variable (w : World)

/-- `cpu_count = priority` for the processes of `due`. -/
def refill (due : Nat → Bool) : World :=
  { w with
    table := fun p => if due p then { w.table p with cpuCount := (w.table p).priority }
      else w.table p
    idle := by split <;> exact w.idle }

/-- The test of the first search: does `p` replace `selected`? -/
def outranks (p selected : Nat) : Bool :=
  (w.table p).policy ≠ .other ∧
    ((w.table selected).policy = .other ∨ (w.table p).rtPriority > (w.table selected).rtPriority ∨
      ((w.table p).rtPriority = (w.table selected).rtPriority ∧
        (w.table p).cpuCount > (w.table selected).cpuCount))

def selectRealTime (queue : List Nat) (selected : Nat) : Nat :=
  queue.foldl (fun selected p => if w.outranks p selected then p else selected) selected

/-- The second search, `(count, selected)`. -/
def selectOther : Int × Nat :=
  w.runQueue.foldl (fun best p =>
    if (w.table p).cpuCount > best.1 then ((w.table p).cpuCount, p) else best) (-1, 0)

/-- The `for(;;)` of `do_sched`; `fuel` bounds its rounds. -/
def select : Nat → World → Option World
  | 0, _ => none
  | fuel + 1, w =>
    let selected := w.selectRealTime w.runQueue 0
    if (w.table selected).policy ≠ .other then
      let spent := (w.table selected).policy = .rr ∧ (w.table selected).cpuCount ≤ 0
      some { w.refill (fun p => p = selected ∧ spent) with current := selected }
    else if w.selectOther.1 ≠ 0 then some { w with current := w.selectOther.2 }
    else select fuel (w.refill (· ∈ w.runQueue))

def doSched (fuel : Nat) : Option World :=
  if (w.table w.current).running ∧ (w.table w.current).cpuCount > 0 then some w
  else select fuel w

def RealTime (p : Nat) : Prop := (w.table p).policy ≠ .other

/-- `p` is runnable, real-time, and of the highest `rt_priority` among such. -/
def Dominant (p : Nat) : Prop :=
  p ∈ w.runQueue ∧ w.RealTime p ∧
    ∀ q ∈ w.runQueue, w.RealTime q → (w.table q).rtPriority ≤ (w.table p).rtPriority

/-! ## The searches -/

theorem outranks_spec (p selected q : Nat) (real : w.RealTime q) (either : q = selected ∨ q = p) :
    let best := if w.outranks p selected then p else selected
    w.RealTime best ∧ (w.table q).rtPriority ≤ (w.table best).rtPriority := by
  unfold RealTime at real ⊢
  rcases either with rfl | rfl
  · by_cases wins : w.outranks p q
    · simp only [outranks, decide_eq_true_eq] at wins
      grind
    · simp [wins, real]
  · by_cases wins : w.outranks q selected
    · simp [wins, real]
    · simp only [outranks, decide_eq_true_eq] at wins
      grind

/-- The induction is on the queue, with `selected` as the accumulator. -/
theorem selectRealTime_spec (queue : List Nat) (selected : Nat) :
    let best := w.selectRealTime queue selected
    (best = selected ∨ best ∈ queue) ∧ ∀ q, q = selected ∨ q ∈ queue → w.RealTime q →
      w.RealTime best ∧ (w.table q).rtPriority ≤ (w.table best).rtPriority := by
  induction queue generalizing selected with
  | nil => exact ⟨.inl rfl, by rintro q (rfl | mem) real; exacts [⟨real, Int.le_refl _⟩, nomatch mem]⟩
  | cons p queue ih =>
    obtain ⟨source, highest⟩ := ih (if w.outranks p selected then p else selected)
    refine ⟨?_, fun q mem real => ?_⟩
    · show w.selectRealTime queue _ = _ ∨ w.selectRealTime queue _ ∈ _
      grind
    · rcases mem with mem | mem
      on_goal 2 => rcases List.mem_cons.mp mem with mem | mem
      on_goal 3 => exact highest q (.inr mem) real
      all_goals
        obtain ⟨kept, above⟩ := w.outranks_spec p selected q real (by simp [mem])
        obtain ⟨final, top⟩ := highest _ (.inl rfl) kept
        exact ⟨final, Int.le_trans above top⟩

/-- A runnable real-time process makes the first search return from the first round. -/
theorem select_dominant (fuel : Nat) (runnable : ∃ q ∈ w.runQueue, w.RealTime q) :
    ∃ w', select (fuel + 1) w = some w' ∧ w'.Dominant w'.current := by
  obtain ⟨q, mem, real⟩ := runnable
  obtain ⟨source, highest⟩ := w.selectRealTime_spec w.runQueue 0
  have found := (highest q (.inr mem) real).1
  have queued := source.resolve_left fun idle => found (by rw [idle]; exact w.idle)
  refine ⟨_, if_pos found, queued, ?_, fun p runs rt => ?_⟩
  · simp only [RealTime, refill]
    split <;> exact found
  · have real : w.RealTime p := by
      simp only [RealTime, refill] at rt
      split at rt <;> exact rt
    have above := (highest p (.inr runs) real).2
    simp only [refill]
    split <;> split <;> exact above

/-- **Real-time dominance.** A runnable real-time process of the highest
`rt_priority` runs after `do_sched` iff the early exit does not keep another. -/
theorem doSched_dominant_iff (fuel : Nat) (runnable : ∃ q ∈ w.runQueue, w.RealTime q) :
    (∃ w', w.doSched (fuel + 1) = some w' ∧ w'.Dominant w'.current) ↔
      ((w.table w.current).running → (w.table w.current).cpuCount > 0 → w.Dominant w.current) := by
  unfold doSched
  by_cases keep : (w.table w.current).running ∧ (w.table w.current).cpuCount > 0
  · simp [keep]
  · rw [if_neg keep]
    exact iff_of_true (w.select_dominant fuel runnable) fun run left => absurd ⟨run, left⟩ keep

end World

/-! ## Poles -/

/-- An ordinary process in slot 1, running with 5 ticks left; a `SCHED_FIFO` one in slot 2. -/
def sliced : World where
  table p := match p with
    | 1 => { cpuCount := 5 }
    | 2 => { policy := .fifo, rtPriority := 99, cpuCount := 1 }
    | _ => {}
  runQueue := [1, 2]
  current := 1
  idle := rfl

theorem sliced_kept : sliced.RealTime 2 ∧ 2 ∈ sliced.runQueue ∧
    sliced.doSched 1 = some sliced ∧ ¬ sliced.Dominant sliced.current :=
  ⟨nofun, by decide, rfl, fun dominant => dominant.2.1 rfl⟩

theorem sliced_blocked :
    let w := { sliced with current := 0 }
    ∃ w', w.doSched 1 = some w' ∧ w'.Dominant w'.current :=
  (World.doSched_dominant_iff { sliced with current := 0 } 0 ⟨2, by decide, nofun⟩).mpr
    fun _ left => absurd left (by decide)

end Argentum.Kernel.Sched
