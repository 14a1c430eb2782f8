/-
# Kernel.WaitProtocol — a wait that loses no wakeup

A waiter arms (`sleep_arm`), looks at its condition, and either disarms and stops or commits
(`sleep_commit`), over and over. A waker makes the condition true and then calls `wakeup`. Signals
and timers call `wakeup_proc`, whose tests are made before interrupts are off and may be stale when
its body runs. Steps of different contexts come in any order, each one a stretch of code that
nothing interrupts.

`wait_protocol` is carried by `Point.Ok`: a waiter that has seen its condition false stays
registered until somebody wakes it; the chains and the run queue are in order (`Sleep.Linked`).
-/
import Argentum.Kernel.Sleep
import Argentum.Lib.Machine

namespace Argentum.Kernel.WaitProtocol

open Lib Lib.Machine Kernel.Sleep Function

/-! ## The machine -/

/-- Where a process is; `blocked` is the `do_sched` of `sleep_commit`, `slept` that of `sleep`. -/
inductive Point
  | outside
  | arm (c : Channel) (interruptible : Bool)
  | look (c : Channel) (interruptible : Bool)
  | commit (c : Channel) (interruptible : Bool)
  | blocked (c : Channel) (interruptible : Bool)
  | disarm
  | slept
  deriving DecidableEq

/-- `holds` are the conditions, `wakers` the wakers that have made one true and have not called
`wakeup` yet; `stateTested` and `tested` are the calls of `wakeup_proc` that have passed the first
and both of its tests. -/
structure State (n : Nat) where
  procs : Procs n
  point : Fin n → Point
  holds : Channel → Bool
  wakers : List Channel
  stateTested : List (Fin n)
  tested : List (Fin n)

/-- `giveUp` is a waiter that leaves its loop for another reason than its condition; `stop` is a
stop signal. -/
inductive Label (n : Nat)
  | enter (p : Fin n) (c : Channel) (interruptible : Bool)
  | arm (p : Fin n)
  | look (p : Fin n)
  | commit (p : Fin n) (signal : Bool)
  | resume (p : Fin n)
  | giveUp (p : Fin n)
  | disarm (p : Fin n)
  | sleep (p : Fin n) (c : Channel) (interruptible signal : Bool)
  | stop (p : Fin n)
  | raise (c : Channel)
  | retract (c : Channel)
  | wakeup (c : Channel)
  | testState (p : Fin n)
  | testFlags (p : Fin n)
  | wakeupProc (p : Fin n)
  deriving DecidableEq

variable {n : Nat}

namespace State

/-- The process goes to another point of its code and leaves `procs`. -/
def move (s : State n) (p : Fin n) (procs : Procs n) (point : Point) : State n :=
  { s with procs := procs, point := update s.point p point }

def advance (s : State n) : Label n → Option (State n)
  | .enter p c interruptible =>
    if s.point p = .outside then some (s.move p s.procs (.arm c interruptible)) else none
  | .arm p =>
    match s.point p with
    | .arm c interruptible => some (s.move p (s.procs.sleepArm p c) (.look c interruptible))
    | _ => none
  | .giveUp p =>
    match s.point p with
    | .arm _ _ => some (s.move p s.procs .disarm)
    | _ => none
  | .look p =>
    match s.point p with
    | .look c interruptible =>
      some (s.move p s.procs (if s.holds c then .disarm else .commit c interruptible))
    | _ => none
  | .commit p signal =>
    match s.point p with
    | .commit c interruptible =>
      let done := s.procs.sleepCommit p interruptible signal
      some (s.move p done.1 (if done.2 then .blocked c interruptible else .arm c interruptible))
    | _ => none
  | .resume p =>
    match s.point p with
    | .blocked c interruptible => some (s.move p s.procs (.arm c interruptible))
    | .slept => some (s.move p s.procs .outside)
    | _ => none
  | .disarm p =>
    match s.point p with
    | .disarm => (s.procs.sleepDisarm p).map fun procs => s.move p procs .outside
    | _ => none
  | .sleep p c interruptible signal =>
    let done := s.procs.sleep p c interruptible signal
    if s.point p = .outside then some (s.move p done.1 (if done.2 then .slept else .outside))
    else none
  | .stop p =>
    if s.point p = .outside then some (s.move p (s.procs.notRunnable p .stopped) .outside)
    else none
  | _ => none

/-- What wakers do to others. -/
def disturb (s : State n) : Label n → Option (State n)
  | .raise c =>
    some { s with holds := update s.holds c true, wakers := c :: s.wakers }
  | .retract c => some { s with holds := update s.holds c false }
  | .wakeup c =>
    if c ∈ s.wakers then
      (s.procs.wakeup c).map fun procs => { s with procs := procs, wakers := s.wakers.erase c }
    else none
  | .testState p =>
    if s.procs.state p = .running then some s
    else some { s with stateTested := p :: s.stateTested }
  | .testFlags p =>
    if p ∈ s.stateTested then
      some { s with
        stateTested := s.stateTested.erase p
        tested := if s.procs.notInterrupt p then s.tested else p :: s.tested }
    else none
  | .wakeupProc p =>
    if p ∈ s.tested then
      some { s with procs := s.procs.wakeupProc p, tested := s.tested.erase p }
    else none
  | _ => none

end State

def Label.actor : Label n → Option (Fin n)
  | .enter p .. | .arm p | .look p | .commit p _ | .resume p | .giveUp p | .disarm p
  | .sleep p .. | .stop p => some p
  | _ => none

/-- A process takes its own steps when it runs; what wakers do comes at any time. -/
def step (s : State n) (a : Label n) : Option (State n) :=
  match a.actor with
  | some p => if s.procs.state p = .running then s.advance a else none
  | none => s.disturb a

/-! ## What is kept -/

/-- If its condition is true, somebody is still to wake the channel. -/
def State.Covered (s : State n) (c : Channel) : Prop := s.holds c = true → c ∈ s.wakers

/-- What a process that stands at a point has for a state and a `sleep_address`. -/
def Point.Ok (covered : Channel → Prop) : Point → ProcState → Option Channel → Prop
  | .outside, state, address => state ≠ .sleeping ∧ address = none
  | .arm c _, state, address => state = .running ∧ (address = none ∨ address = some c)
  | .look c _, state, address => state = .running ∧ (address = none ∨ address = some c)
  | .commit c _, state, address =>
    state = .running ∧ (address = none ∨ address = some c ∧ covered c)
  | .blocked c _, state, address =>
    (state = .running ∧ address = none) ∨ (state = .sleeping ∧ address = some c ∧ covered c)
  | .disarm, state, _ => state = .running
  | .slept, state, address => (state = .running ∧ address = none) ∨ state = .sleeping

structure Inv (s : State n) : Prop where
  linked : Linked s.procs
  ok : ∀ p, (s.point p).Ok s.Covered (s.procs.state p) (s.procs.sleepAddress p)

open State

section Steps

variable {s s' : State n} {p : Fin n} {c : Channel} {a : Label n} {point : Point} {procs : Procs n}
  {covered : Channel → Prop} {interruptible signal : Bool}

theorem Point.Ok.mono {covered' : Channel → Prop} {state : ProcState}
    {address : Option Channel} (ok : point.Ok covered state address)
    (weaker : ∀ c, address = some c → covered c → covered' c) :
    point.Ok covered' state address := by
  cases point with
  | commit c i => exact ⟨ok.1, ok.2.imp_right fun ⟨set, here⟩ => ⟨set, weaker c set here⟩⟩
  | blocked c i =>
    exact ok.imp_right fun ⟨asleep, set, here⟩ => ⟨asleep, set, weaker c set here⟩
  | outside | arm | look | disarm | slept => exact ok

/-- A process that is woken may stand anywhere. -/
theorem Point.Ok.woken : point.Ok covered .running none := by
  cases point with
  | outside => exact ⟨by decide, rfl⟩
  | arm | look | commit => exact ⟨rfl, .inl rfl⟩
  | blocked | slept => exact .inl ⟨rfl, rfl⟩
  | disarm => exact rfl

/-- A step of `p` that leaves the other processes alone. -/
theorem Inv.move (inv : Inv s) (linked : Linked procs) (others : ∀ q, q ≠ p →
      procs.state q = s.procs.state q ∧ procs.sleepAddress q = s.procs.sleepAddress q)
    (ok : point.Ok s.Covered (procs.state p) (procs.sleepAddress p)) :
    Inv (s.move p procs point) := by
  refine ⟨linked, fun q => ?_⟩
  show (update s.point p point q).Ok s.Covered (procs.state q) (procs.sleepAddress q)
  by_cases self : q = p
  · rw [self, update_self]
    exact ok
  · rw [update_of_ne self, (others q self).1, (others q self).2]
    exact inv.ok q

/-- A step of `p` that only moves it. -/
theorem Inv.stay (inv : Inv s)
    (ok : point.Ok s.Covered (s.procs.state p) (s.procs.sleepAddress p)) :
    Inv (s.move p s.procs point) :=
  inv.move inv.linked (fun _ _ => ⟨rfl, rfl⟩) ok

theorem block_others (interruptible : Bool) (after : ProcState) {q : Fin n} (other : q ≠ p) :
    (procs.block p interruptible).state q = procs.state q ∧
      (procs.notRunnable p after).state q = procs.state q :=
  ⟨update_of_ne other _ _, update_of_ne other _ _⟩

variable (inv : Inv s)

include inv

theorem Inv.commit (runs : s.procs.state p = .running)
    (point : s.point p = .commit c interruptible) :
    Inv (s.move p (s.procs.sleepCommit p interruptible signal).1
      (if (s.procs.sleepCommit p interruptible signal).2 then .blocked c interruptible
        else .arm c interruptible)) := by
  have ok := inv.ok p
  rw [point] at ok
  have back : (Point.arm c interruptible).Ok s.Covered (s.procs.state p)
      (s.procs.sleepAddress p) := ⟨ok.1, ok.2.imp_right And.left⟩
  unfold Procs.sleepCommit
  split
  case h_1 => exact inv.stay back
  case h_2 d set =>
    split
    · exact inv.stay back
    apply inv.move (inv.linked.block runs interruptible)
    · exact fun q other => ⟨(block_others interruptible .sleeping other).1, rfl⟩
    · rcases ok.2 with none | registered
      · rw [none] at set
        cases set
      · exact .inr ⟨update_self .., registered⟩

theorem Inv.sleep (runs : s.procs.state p = .running) (point : s.point p = .outside) :
    Inv (s.move p (s.procs.sleep p c interruptible signal).1
      (if (s.procs.sleep p c interruptible signal).2 then .slept else .outside)) := by
  have ok := inv.ok p
  rw [point] at ok
  unfold Procs.sleep
  split
  · exact inv.stay ok
  rw [if_neg (by simp [runs])]
  have linked : Linked ((s.procs.register p c).block p interruptible) :=
    (inv.linked.register ok.2).block runs interruptible
  apply inv.move linked
  · exact fun q other => ⟨(block_others interruptible .sleeping other).1, update_of_ne other _ _⟩
  · exact .inr (update_self ..)

theorem advance_inv (acts : a.actor = some p)
    (runs : s.procs.state p = .running) (taken : s.advance a = some s') : Inv s' := by
  have ok := inv.ok p
  cases a <;> cases acts <;> simp only [advance] at taken
  case enter c i =>
    obtain ⟨point, rfl⟩ := when_eq_some.mp taken
    rw [point] at ok
    exact inv.stay ⟨runs, .inl ok.2⟩
  case arm =>
    split at taken
    case h_2 => cases taken
    case h_1 c i point =>
      cases taken
      rw [point] at ok
      apply inv.move inv.linked.sleepArm
      · intro q other
        rw [sleepArm_state, sleepArm_sleepAddress runs, update_of_ne other]
        exact ⟨rfl, rfl⟩
      · rw [sleepArm_state, sleepArm_sleepAddress runs, update_self]
        refine ⟨runs, .inr ?_⟩
        rcases ok.2 with free | set
        · rw [free, Option.getD_none]
        · rw [set, Option.getD_some]
  case giveUp =>
    split at taken
    case h_2 => cases taken
    case h_1 =>
      cases taken
      exact inv.stay runs
  case look =>
    split at taken
    case h_2 => cases taken
    case h_1 c i point =>
      cases taken
      rw [point] at ok
      apply inv.stay
      split
      case isTrue => exact runs
      case isFalse never =>
        -- the condition is false, so its next waker is still to come
        exact ⟨runs, ok.2.imp_right fun set => ⟨set, fun holds => absurd holds never⟩⟩
  case commit signal =>
    split at taken
    case h_2 => cases taken
    case h_1 c i point =>
      cases taken
      exact inv.commit runs point
  case resume =>
    split at taken
    case h_1 c i point =>
      cases taken
      rw [point] at ok
      refine inv.stay ⟨runs, ?_⟩
      rcases ok with ⟨-, free⟩ | ⟨-, set, -⟩
      · exact .inl free
      · exact .inr set
    case h_2 point =>
      cases taken
      rw [point] at ok
      refine inv.stay ?_
      rcases ok with ⟨-, free⟩ | asleep
      · exact ⟨by simp [runs], free⟩
      · rw [asleep] at runs
        cases runs
    case h_3 => cases taken
  case disarm =>
    split at taken
    case h_2 => cases taken
    case h_1 =>
      obtain ⟨procs, ends, linked, state, address⟩ := sleepDisarm_eq inv.linked
      rw [ends] at taken
      cases taken
      apply inv.move linked
      · intro q other
        rw [state, address, update_of_ne other]
        exact ⟨rfl, rfl⟩
      · rw [state, address, update_self, runs]
        exact Point.Ok.woken
  case sleep c i signal =>
    obtain ⟨point, rfl⟩ := when_eq_some.mp taken
    exact inv.sleep runs point
  case stop =>
    obtain ⟨point, rfl⟩ := when_eq_some.mp taken
    rw [point] at ok
    apply inv.move (inv.linked.notRunnable runs (by decide))
    · exact fun q other => ⟨(block_others true .stopped other).2, rfl⟩
    · refine ⟨?_, ok.2⟩
      rw [show (s.procs.notRunnable p .stopped).state p = .stopped from update_self ..]
      decide

/-- After `wakeup` nobody waits on the channel, so its waker is not missed. -/
theorem Inv.wakeup (linked : Linked procs) (woken : Woken c s.procs procs) :
    Inv { s with procs := procs, wakers := s.wakers.erase c } := by
  refine ⟨linked, fun q => ?_⟩
  have ok := inv.ok q
  rw [woken.state q, woken.sleepAddress q]
  by_cases here : s.procs.sleepAddress q = some c
  · rw [if_pos here]
    by_cases asleep : s.procs.state q = .sleeping
    · rw [if_pos ⟨here, asleep⟩]
      exact Point.Ok.woken
    rw [if_neg fun both => asleep both.2]
    revert ok
    cases s.point q with
    | outside => exact fun ok => ⟨ok.1, rfl⟩
    | arm | look | commit => exact fun ok => ⟨ok.1, .inl rfl⟩
    | blocked => exact fun ok => .inl ⟨(ok.resolve_right fun bad => asleep bad.1).1, rfl⟩
    | disarm => exact id
    | slept => exact fun ok => .inl ⟨(ok.resolve_right asleep).1, rfl⟩
  · rw [if_neg here, if_neg fun both => here both.1]
    refine ok.mono fun d set covered holds => ?_
    have other : d ≠ c := fun same => here (same ▸ set)
    exact (List.mem_erase_of_ne other).mpr (covered holds)

theorem disturb_inv (taken : s.disturb a = some s') : Inv s' := by
  cases a with
  | raise c =>
    cases taken
    refine ⟨inv.linked, fun q => (inv.ok q).mono fun d _ covered holds => ?_⟩
    by_cases same : d = c
    · exact same ▸ List.mem_cons_self
    · have before : s.holds d = true := by simpa [update_of_ne same] using holds
      exact List.mem_cons_of_mem c (covered before)
  | retract c =>
    cases taken
    refine ⟨inv.linked, fun q => (inv.ok q).mono fun d _ covered holds => ?_⟩
    by_cases same : d = c
    · simp [same] at holds
    · exact covered (by simpa [update_of_ne same] using holds)
  | wakeup c =>
    obtain ⟨procs, ends, linked, woken⟩ := wakeup_eq inv.linked
    rw [disturb, ends, Option.ite_none_right_eq_some] at taken
    obtain ⟨-, same⟩ := taken
    cases same
    exact inv.wakeup linked woken
  | testState q =>
    rw [disturb] at taken
    split at taken
    · cases taken
      exact inv
    · cases taken
      exact ⟨inv.linked, inv.ok⟩
  | testFlags q =>
    rw [disturb, when_eq_some] at taken
    obtain ⟨-, rfl⟩ := taken
    exact ⟨inv.linked, inv.ok⟩
  | wakeupProc q =>
    rw [disturb, when_eq_some] at taken
    obtain ⟨-, rfl⟩ := taken
    refine ⟨inv.linked.wakeupProc, fun r => ?_⟩
    rw [wakeupProc_state, wakeupProc_sleepAddress]
    by_cases self : r = q
    · rw [self, update_self, update_self]
      exact Point.Ok.woken
    · rw [update_of_ne self, update_of_ne self]
      exact inv.ok r
  | enter | arm | look | commit | resume | giveUp | disarm | sleep | stop => cases taken

theorem inv_step (taken : step s a = some s') : Inv s' := by
  rw [step] at taken
  split at taken
  case h_1 p acts =>
    rw [Option.ite_none_right_eq_some] at taken
    exact advance_inv inv acts taken.1 taken.2
  case h_2 => exact disturb_inv inv taken

end Steps

/-! ## Runs -/

/-- Nobody waits; any processes are on the run queue. -/
structure Fresh (s : State n) : Prop where
  point : ∀ p, s.point p = .outside
  awake : ∀ p, s.procs.state p ≠ .sleeping
  address : ∀ p, s.procs.sleepAddress p = none
  chains : ∀ b, s.procs.sleepHashTable.head b = none
  queue : OnQueue s.procs.runQueue s.procs.state

theorem Fresh.inv {s : State n} (fresh : Fresh s) : Inv s := by
  refine ⟨⟨⟨fun _ => [], ⟨?_, fun b p => ?_⟩⟩, fresh.queue⟩, fun p => ?_⟩
  · exact Chains.represents_nil fresh.chains
  · simp [fresh.address p]
  · rw [fresh.point p]
    exact ⟨fresh.awake p, fresh.address p⟩

def State.AsleepOn (s : State n) (p : Fin n) (c : Channel) : Prop :=
  (∃ interruptible, s.point p = .blocked c interruptible) ∧ s.procs.state p = .sleeping

/-- **The wait protocol.** In every state reached: each process is on the chain of its
`sleep_address` and no other, and on the run queue when it runs; the loops of `wakeup` and
`sleep_disarm` end; and no waiter sleeps on a channel whose condition is true and whose wakers have
all finished. -/
theorem wait_protocol {start s : State n} {labels : List (Label n)} (fresh : Fresh start)
    (ran : run step start labels = some s) :
    Linked s.procs ∧ (∀ c, (s.procs.wakeup c).isSome) ∧ (∀ p, (s.procs.sleepDisarm p).isSome) ∧
      ∀ p c, ¬(s.holds c = true ∧ c ∉ s.wakers ∧ s.AsleepOn p c) := by
  have inv : Inv s := run_keeps (fun _ _ _ inv taken => inv_step inv taken) fresh.inv ran
  refine ⟨inv.linked, fun c => ?_, fun p => ?_, ?_⟩
  · obtain ⟨procs, ends, -⟩ := wakeup_eq (c := c) inv.linked
    simp [ends]
  · obtain ⟨procs, ends, -⟩ := sleepDisarm_eq (p := p) inv.linked
    simp [ends]
  · rintro p c ⟨holds, finished, ⟨interruptible, point⟩, asleep⟩
    have ok := inv.ok p
    rw [point, asleep] at ok
    rcases ok with ⟨bad, -⟩ | ⟨-, -, covered⟩
    · cases bad
    · exact finished (covered holds)

/-! ## Poles -/

section Poles

/-- Two processes, both stopped. -/
def stopped : State 2 :=
  { procs :=
      { state := fun _ => .stopped, sleepAddress := fun _ => none, notInterrupt := fun _ => false
        sleepHashTable := Chains.empty, runQueue := Chains.empty }
    point := fun _ => .outside, holds := fun _ => false, wakers := [], stateTested := []
    tested := [] }

theorem stopped_fresh : Fresh stopped := by
  refine ⟨fun _ => rfl, fun _ => nofun, fun _ => rfl, fun _ => rfl, [], ?_, ?_, ?_⟩
  · exact Chains.represents_nil fun _ => rfl
  · exact fun p => iff_of_false List.not_mem_nil nofun
  · exact fun p _ => ⟨rfl, rfl⟩

/-- Both wait on one channel. The waker of the first raises the condition between its look and its
commit; the second is woken by `wakeup_proc` after a stale test, while it runs. -/
def contendedRun : List (Label 2) :=
  let c : Channel := ⟨7, by decide⟩
  [.testState 0, .testFlags 0, .wakeupProc 0, .testState 1, .testFlags 1, .testState 1,
    .wakeupProc 1, .testFlags 1, .enter 0 c true, .arm 0, .look 0, .enter 1 c false, .arm 1,
    .wakeupProc 1, .look 1, .commit 1 false, .arm 1, .look 1, .commit 1 true, .raise c,
    .commit 0 false]

theorem wait_protocol_contendedRun :
    ∃ s, run step stopped contendedRun = some s ∧ s.procs.state 1 = .sleeping ∧ Linked s.procs := by
  obtain ⟨s, ran⟩ : ∃ s, run step stopped contendedRun = some s :=
    Option.isSome_iff_exists.mp (by decide +kernel)
  have asleep : (run step stopped contendedRun).any
      (fun s => s.procs.state 1 = .sleeping) = true := by
    decide +kernel
  rw [ran, Option.any_some, decide_eq_true_eq] at asleep
  exact ⟨s, ran, asleep, (wait_protocol stopped_fresh ran).1⟩

end Poles

end Argentum.Kernel.WaitProtocol
