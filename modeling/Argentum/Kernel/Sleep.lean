/-
# Kernel.Sleep — sleeping and waking

`kernel/sleep.c` keeps every process that waits on a hash chain of its wait channel, and every
runnable one on the run queue (`Lib.Chains`). Each function here is what the source does between
`CLI` and `RESTORE_FLAGS`: nothing comes between. The two loops that follow a chain have fuel for
one more process than there are; they are shown to end with it.

`Linked` is what all of them keep: a process is on the chain of its `sleep_address` and on no
other, and on the run queue exactly when it is running.
-/
import Argentum.Lib.Chains
import Mathlib.Data.Fintype.Card

namespace Argentum.Kernel.Sleep

open Lib List Chains
open Function (update update_eq_self_iff update_of_ne update_self)

/-- A wait channel is the address of an object, never `NULL`. -/
abbrev Channel := { a : Nat // a ≠ 0 }

def nrBuckets : Nat := 1024 * 10 / 100

/-- `SLEEP_HASH`. -/
def sleepHash (c : Channel) : Nat := c.val % nrBuckets

inductive ProcState
  | running
  | sleeping
  | stopped
  deriving DecidableEq

/-- The fields of all processes that sleeping and waking use; `notInterrupt` is the flag
`PF_NOTINTERRUPT`. -/
structure Procs (n : Nat) where
  state : Fin n → ProcState
  sleepAddress : Fin n → Option Channel
  notInterrupt : Fin n → Bool
  sleepHashTable : Chains Nat (Fin n)
  runQueue : Chains Unit (Fin n)

variable {n : Nat}

/-- The insertion of `runnable`, which leaves the pointers of the new head that it does not need. -/
def pushRun (k : Chains Unit (Fin n)) (p : Fin n) : Chains Unit (Fin n) :=
  match k.head () with
  | some h =>
    { head := update k.head () (some p)
      prev := update k.prev h (some p)
      next := update k.next p (some h) }
  | none => { k with head := update k.head () (some p) }

/-- A step of `sleep_disarm`'s search for the slot that holds `p`. -/
def disarmLoop (p : Fin n) : Nat → Slot Nat (Fin n) → Chains Nat (Fin n) →
    Option (Chains Nat (Fin n))
  | 0, _, _ => none
  | fuel + 1, h, k =>
    match k.read h with
    | none => some k
    | some q =>
      if q = p then some ((k.bypass p).write ((k.bypass p).next p) h)
      else disarmLoop p fuel (.next q) k

namespace Procs

variable (s : Procs n) (p : Fin n) (c : Channel) (interruptible signal : Bool)

def runnable : Procs n :=
  if s.state p = .running then s
  else
    { s with
      runQueue := pushRun s.runQueue p
      state := update s.state p .running }

def notRunnable (state : ProcState) : Procs n :=
  { s with
    runQueue := (s.runQueue.unlink () p).clear p
    state := update s.state p state }

/-- The insertion in the head of a chain. -/
def register : Procs n :=
  { s with
    sleepHashTable := s.sleepHashTable.push (sleepHash c) p
    sleepAddress := update s.sleepAddress p (some c) }

/-- An uninterruptible sleeper is marked; then it sleeps. -/
def block (interruptible : Bool) : Procs n :=
  { s with
    notInterrupt :=
      if interruptible then s.notInterrupt else update s.notInterrupt p true }.notRunnable
    p .sleeping

/-- `sleep` up to `do_sched`; `signal` is what `issig` finds. The flag says whether it sleeps. -/
def sleep : Procs n × Bool :=
  if interruptible && signal then (s, false)
  else if s.state p = .sleeping then (s, false)
  else ((s.register p c).block p interruptible, true)

/-- `sleep_arm`. -/
def sleepArm : Procs n :=
  match s.sleepAddress p with
  | some _ => s
  | none => if s.state p = .sleeping then s else s.register p c

/-- `sleep_disarm`. -/
def sleepDisarm : Option (Procs n) :=
  match s.sleepAddress p with
  | none => some s
  | some c =>
    (disarmLoop p (n + 1) (.head (sleepHash c)) s.sleepHashTable).map fun k =>
      { s with
        sleepHashTable := k.clear p
        sleepAddress := update s.sleepAddress p none }

/-- `sleep_commit` up to `do_sched`. -/
def sleepCommit : Procs n × Bool :=
  match s.sleepAddress p with
  | none => (s, false)
  | some _ => if interruptible && signal then (s, false) else (s.block p interruptible, true)

/-- What `wakeup` does to a process that it has found. -/
def wake : Procs n :=
  let woken := { s with
    sleepAddress := update s.sleepAddress p none
    notInterrupt := update s.notInterrupt p false }
  if s.state p = .sleeping then woken.runnable p else woken

/-- What `wakeup` does to the chain, at the slot `h`. -/
def unhook (b : Nat) (h : Slot Nat (Fin n)) (p : Fin n) : Procs n :=
  let k := s.sleepHashTable.bypass p
  { s with sleepHashTable := if h = .head b then k.write (k.next p) h else k }

def wakeupLoop (b : Nat) (c : Channel) : Nat → Slot Nat (Fin n) → Procs n → Option (Procs n)
  | 0, _, _ => none
  | fuel + 1, h, s =>
    match s.sleepHashTable.read h with
    | none => some s
    | some p =>
      if s.sleepAddress p = some c then wakeupLoop b c fuel h ((s.wake p).unhook b h p)
      else wakeupLoop b c fuel (.next p) s

/-- `wakeup`. -/
def wakeup : Option (Procs n) :=
  wakeupLoop (sleepHash c) c (n + 1) (.head (sleepHash c)) s

/-- `wakeup_proc`, once its tests are passed. -/
def wakeupProc : Procs n :=
  { s with
    sleepHashTable := match s.sleepAddress p with
      | some c => s.sleepHashTable.unlink (sleepHash c) p
      | none => s.sleepHashTable
    sleepAddress := update s.sleepAddress p none }.runnable p

end Procs

/-! ## The chains and the run queue -/

/-- `l` are the chains: a process is on that of its `sleep_address`, once, and on no other. -/
structure OnLists (k : Chains Nat (Fin n)) (address : Fin n → Option Channel)
    (l : Nat → List (Fin n)) : Prop where
  represents : k.Represents l
  mem_iff : ∀ b p, p ∈ l b ↔ ∃ c, address p = some c ∧ sleepHash c = b

def OnChains (k : Chains Nat (Fin n)) (address : Fin n → Option Channel) : Prop :=
  ∃ l, OnLists k address l

/-- The running processes are on the run queue, once; the others have no pointers into it. -/
def OnQueue (k : Chains Unit (Fin n)) (state : Fin n → ProcState) : Prop :=
  ∃ q : List (Fin n), k.Represents (fun _ => q) ∧ (∀ p, p ∈ q ↔ state p = .running) ∧
    ∀ p, p ∉ q → k.prev p = none ∧ k.next p = none

def Linked (s : Procs n) : Prop :=
  OnChains s.sleepHashTable s.sleepAddress ∧ OnQueue s.runQueue s.state

section Chains

variable {k : Chains Nat (Fin n)} {address : Fin n → Option Channel} {l : Nat → List (Fin n)}
  {p : Fin n} {c : Channel}

theorem OnLists.off (on : OnLists k address l) (free : address p = none) (b : Nat) : p ∉ l b := by
  intro inside
  obtain ⟨d, set, -⟩ := (on.mem_iff b p).mp inside
  rw [free] at set
  cases set

theorem OnLists.unlink (on : OnLists k address l) {pre post : List (Fin n)}
    (split : l (sleepHash c) = pre ++ p :: post) :
    OnLists (k.unlink (sleepHash c) p) (update address p none)
      (update l (sleepHash c) (pre ++ post)) := by
  have inside : p ∈ l (sleepHash c) := by simp [split]
  have once := on.represents.nodup (sleepHash c)
  rw [split, nodup_middle, nodup_cons] at once
  refine ⟨on.represents.unlink split, fun b q => ?_⟩
  by_cases self : q = p
  · subst self
    by_cases same : b = sleepHash c
    · simpa [same] using once.1
    · simpa [same] using fun other => same (on.represents.apart q b _ other inside)
  · rw [update_of_ne self, ← on.mem_iff b q]
    by_cases same : b = sleepHash c
    · simp [same, split, self]
    · simp [same]

variable (on : OnChains k address)

include on

theorem OnChains.push (free : address p = none) :
    OnChains (k.push (sleepHash c) p) (update address p (some c)) := by
  obtain ⟨l, on⟩ := on
  refine ⟨_, on.represents.push (on.off free), fun b q => ?_⟩
  by_cases self : q = p
  · subst self
    by_cases same : b = sleepHash c
    · simp [same]
    · simpa [same, on.off free] using Ne.symm same
  · rw [update_of_ne self, ← on.mem_iff b q]
    by_cases same : b = sleepHash c
    · simp [same, self]
    · simp [same]

theorem OnChains.unlink (set : address p = some c) :
    OnChains (k.unlink (sleepHash c) p) (update address p none) := by
  obtain ⟨l, on⟩ := on
  obtain ⟨pre, post, split⟩ := append_of_mem ((on.mem_iff _ p).mpr ⟨c, set, rfl⟩)
  exact ⟨_, on.unlink split⟩

theorem OnChains.clear (free : address p = none) : OnChains (k.clear p) address := by
  obtain ⟨l, on⟩ := on
  exact ⟨l, on.represents.clear (on.off free), on.mem_iff⟩

end Chains

section Queue

variable {k : Chains Unit (Fin n)} {state : Fin n → ProcState} {p : Fin n}

theorem pushRun_eq_push (prev : k.prev p = none) (next : k.next p = none) :
    pushRun k p = k.push () p := by
  unfold pushRun push
  have samePrev : update k.prev p none = k.prev :=
    update_eq_self_iff.mpr prev.symm
  have sameNext : update k.next p none = k.next :=
    update_eq_self_iff.mpr next.symm
  cases k.head () with
  | none => simp only [samePrev, sameNext]
  | some h => simp only [samePrev]

theorem push_off {q : Fin n} {l : List (Fin n)} (rep : k.Represents fun _ => l) (other : q ≠ p)
    (off : q ∉ l) :
    (k.push () p).prev q = k.prev q ∧ (k.push () p).next q = k.next q := by
  have head := rep.head ()
  unfold push
  split
  case h_1 => simp [other]
  case h_2 h first =>
    have notHead : q ≠ h := by
      rintro rfl
      exact off (mem_of_mem_head? (head.symm.trans first))
    simp [other, notHead]

theorem OnQueue.push (on : OnQueue k state) (waits : state p ≠ .running) :
    OnQueue (pushRun k p) (update state p .running) := by
  obtain ⟨q, rep, queued, tidy⟩ := on
  have off : p ∉ q := fun inside => waits ((queued p).mp inside)
  rw [pushRun_eq_push (tidy p off).1 (tidy p off).2]
  have pushed := rep.push (b := ()) fun _ => off
  refine ⟨p :: q, pushed, fun r => ?_, fun r outside => ?_⟩
  · rw [mem_cons, queued r]
    by_cases self : r = p
    · simp [self]
    · simp [self]
  · rw [mem_cons, not_or] at outside
    obtain ⟨prev, next⟩ := push_off rep outside.1 outside.2
    exact ⟨prev.trans (tidy r outside.2).1, next.trans (tidy r outside.2).2⟩

theorem OnQueue.drop (on : OnQueue k state) (runs : state p = .running) {after : ProcState}
    (stops : after ≠ .running) :
    OnQueue ((k.unlink () p).clear p) (update state p after) := by
  obtain ⟨q, rep, queued, tidy⟩ := on
  obtain ⟨pre, post, split⟩ := append_of_mem ((queued p).mpr runs)
  have once := rep.nodup ()
  rw [split, nodup_middle, nodup_cons] at once
  have unlinked := rep.unlink (b := ()) split
  refine ⟨pre ++ post, unlinked.clear fun _ => once.1, fun r => ?_, fun r outside => ?_⟩
  · by_cases self : r = p
    · rw [self, update_self]
      exact iff_of_false once.1 stops
    · rw [update_of_ne self, ← queued r, split]
      simp [self]
  · by_cases self : r = p
    · simp [self, clear]
    -- a process off the queue is no neighbour of `p`
    obtain ⟨-, nexts, prevs⟩ := rep.bypass_eq (b := ()) split
    obtain ⟨-, sameNext, samePrev⟩ := rep.unlink_eq split
    have off : r ∉ q := by
      rw [split]
      simpa [self] using outside
    have notLast : pre.getLast? ≠ some r := fun last =>
      outside (mem_append_left _ (mem_of_getLast? last))
    have notFirst : post.head? ≠ some r := fun first =>
      outside (mem_append_right _ (mem_of_mem_head? first))
    have prev : (k.unlink () p).prev r = none := by
      rw [samePrev, prevs, if_neg notFirst]
      exact (tidy r off).1
    have next : (k.unlink () p).next r = none := by
      rw [sameNext, nexts, if_neg notLast]
      exact (tidy r off).2
    simp [clear, self, prev, next]

end Queue

/-! ## What the functions do -/

open Procs

section Functions

variable {s : Procs n} {p : Fin n} {c : Channel} {l : Nat → List (Fin n)} {post pre : List (Fin n)}
  {b fuel : Nat} {k : Chains Nat (Fin n)}

namespace Linked

variable (linked : Linked s)

include linked

theorem register (free : s.sleepAddress p = none) : Linked (s.register p c) :=
  ⟨linked.1.push free, linked.2⟩

theorem block (runs : s.state p = .running) (interruptible : Bool) :
    Linked (s.block p interruptible) :=
  ⟨linked.1, linked.2.drop runs (by decide)⟩

theorem notRunnable (runs : s.state p = .running) {after : ProcState} (stops : after ≠ .running) :
    Linked (s.notRunnable p after) :=
  ⟨linked.1, linked.2.drop runs stops⟩

theorem sleepArm : Linked (s.sleepArm p c) := by
  unfold Procs.sleepArm
  split
  case h_1 => exact linked
  case h_2 free =>
    split
    · exact linked
    · exact linked.register free

theorem runnable : Linked (s.runnable p) := by
  unfold Procs.runnable
  split
  case isTrue => exact linked
  case isFalse waits => exact ⟨linked.1, linked.2.push waits⟩

theorem wakeupProc : Linked (s.wakeupProc p) := by
  apply Linked.runnable
  refine ⟨?_, linked.2⟩
  cases set : s.sleepAddress p with
  | none =>
    rw [update_eq_self_iff.mpr set.symm]
    exact linked.1
  | some c => exact linked.1.unlink set

end Linked

theorem runnable_state (s : Procs n) (p : Fin n) :
    (s.runnable p).state = update s.state p .running := by
  unfold runnable
  split
  case isTrue runs => exact (update_eq_self_iff.mpr runs.symm).symm
  case isFalse => rfl

theorem runnable_rest (s : Procs n) (p : Fin n) :
    (s.runnable p).sleepAddress = s.sleepAddress ∧
      (s.runnable p).sleepHashTable = s.sleepHashTable := by
  unfold runnable
  split <;> exact ⟨rfl, rfl⟩

theorem wakeupProc_state (s : Procs n) (p : Fin n) :
    (s.wakeupProc p).state = update s.state p .running :=
  runnable_state _ p

theorem wakeupProc_sleepAddress (s : Procs n) (p : Fin n) :
    (s.wakeupProc p).sleepAddress = update s.sleepAddress p none :=
  (runnable_rest _ p).1

/-- `sleep_arm` by a running process. -/
theorem sleepArm_sleepAddress (runs : s.state p = .running) :
    (s.sleepArm p c).sleepAddress = update s.sleepAddress p (some ((s.sleepAddress p).getD c)) := by
  unfold sleepArm
  split
  case h_1 d set =>
    rw [set]
    exact (update_eq_self_iff.mpr set.symm).symm
  case h_2 free =>
    rw [if_neg (by simp [runs]), free]
    rfl

theorem sleepArm_state (s : Procs n) (p : Fin n) (c : Channel) :
    (s.sleepArm p c).state = s.state := by
  unfold sleepArm
  split
  · rfl
  · split <;> rfl

/-! ## The loops end -/

theorem disarmLoop_eq (rep : k.Represents l)
    {mid : List (Fin n)} (split : l b = pre ++ (mid ++ p :: post)) (enough : mid.length < fuel) :
    disarmLoop p fuel (slotAfter b pre) k = some (k.unlink b p) := by
  induction mid generalizing pre fuel with
  | nil =>
    obtain ⟨fuel, rfl⟩ := Nat.exists_eq_add_one.mpr (Nat.zero_lt_of_lt enough)
    rw [disarmLoop, rep.read_slotAfter split]
    simp only [nil_append, List.head?_cons, if_true]
    rw [rep.write_slotAfter split]
  | cons q mid ih =>
    obtain ⟨fuel, rfl⟩ := Nat.exists_eq_add_one.mpr (Nat.zero_lt_of_lt enough)
    have other : q ≠ p := by
      rintro rfl
      have once := rep.nodup b
      rw [split] at once
      simp [nodup_append] at once
    have further : l b = (pre ++ [q]) ++ (mid ++ p :: post) := by simp [split]
    have slot : slotAfter b (pre ++ [q]) = (.next q : Slot Nat (Fin n)) := by
      rw [slotAfter, List.getLast?_concat]
    rw [disarmLoop, rep.read_slotAfter split]
    simp only [cons_append, List.head?_cons, if_neg other]
    rw [← slot]
    exact ih further (by simpa using enough)

theorem length_le (rep : k.Represents l) (b : Nat) : (l b).length ≤ n := by
  simpa using (rep.nodup b).length_le_card

/-- `sleep_disarm` ends, and the process is off its chain. -/
theorem sleepDisarm_eq (linked : Linked s) :
    ∃ s', s.sleepDisarm p = some s' ∧ Linked s' ∧ s'.state = s.state ∧
      s'.sleepAddress = update s.sleepAddress p none := by
  unfold sleepDisarm
  split
  case h_1 free => exact ⟨s, rfl, linked, rfl, (update_eq_self_iff.mpr free.symm).symm⟩
  case h_2 c set =>
    obtain ⟨l, on⟩ := linked.1
    obtain ⟨mid, post, split⟩ := append_of_mem ((on.mem_iff _ p).mpr ⟨c, set, rfl⟩)
    have short : mid.length < n + 1 := by
      have all := length_le on.represents (sleepHash c)
      rw [split, length_append] at all
      omega
    have ends : disarmLoop p (n + 1) (.head (sleepHash c)) s.sleepHashTable = _ :=
      disarmLoop_eq on.represents (show l _ = [] ++ (mid ++ p :: post) from split) short
    rw [ends]
    refine ⟨_, rfl, ⟨?_, linked.2⟩, rfl, rfl⟩
    exact (linked.1.unlink set).clear (update_self ..)

/-- What `wakeup` does to the processes. -/
structure Woken (c : Channel) (s s' : Procs n) : Prop where
  sleepAddress : ∀ p, s'.sleepAddress p = if s.sleepAddress p = some c then none
    else s.sleepAddress p
  state : ∀ p, s'.state p = if s.sleepAddress p = some c ∧ s.state p = .sleeping then .running
    else s.state p

theorem wake_sleepAddress (s : Procs n) (p : Fin n) :
    (s.wake p).sleepAddress = update s.sleepAddress p none ∧
      (s.wake p).sleepHashTable = s.sleepHashTable := by
  simp only [wake]
  split
  · exact runnable_rest _ p
  · exact ⟨rfl, rfl⟩

theorem wake_state (s : Procs n) (p : Fin n) :
    (s.wake p).state =
      update s.state p (if s.state p = .sleeping then .running else s.state p) := by
  simp only [wake]
  split
  · exact runnable_state _ p
  · exact (update_eq_self_iff.mpr rfl).symm

theorem wake_onQueue (on : OnQueue s.runQueue s.state) :
    OnQueue (s.wake p).runQueue (s.wake p).state := by
  simp only [wake]
  split
  case isTrue asleep =>
    have waits : s.state p ≠ .running := by simp [asleep]
    simp only [runnable, if_neg waits]
    exact on.push waits
  case isFalse => exact on

theorem wakeHook_sleepHashTable (on : OnLists s.sleepHashTable s.sleepAddress l)
    (split : l (sleepHash c) = pre ++ p :: post) :
    ((s.wake p).unhook (sleepHash c) (slotAfter (sleepHash c) pre) p).sleepHashTable =
      s.sleepHashTable.unlink (sleepHash c) p := by
  have atHead := on.represents.slotAfter_eq_head split
  simp only [unhook, (wake_sleepAddress s p).2]
  split
  case isTrue => exact on.represents.write_slotAfter split
  case isFalse inner => rw [unlink, if_neg (inner ∘ atHead.mpr)]

theorem Woken.step {s' : Procs n} {h : Slot Nat (Fin n)}
    (found : s.sleepAddress p = some c) (later : Woken c ((s.wake p).unhook b h p) s') :
    Woken c s s' := by
  have address : ((s.wake p).unhook b h p).sleepAddress = update s.sleepAddress p none :=
    (wake_sleepAddress s p).1
  have state : ((s.wake p).unhook b h p).state = _ := wake_state s p
  refine ⟨fun q => ?_, fun q => ?_⟩
  · rw [later.sleepAddress q, address]
    by_cases self : q = p
    · simp [self, found]
    · simp [self]
  · rw [later.state q, address, state]
    by_cases self : q = p
    · simp [self, found]
    · simp [self]

/-- The loop of `wakeup`, with the processes `pre` behind it. -/
theorem wakeupLoop_eq
    (on : OnLists s.sleepHashTable s.sleepAddress l) (queue : OnQueue s.runQueue s.state)
    (split : l (sleepHash c) = pre ++ post) (missed : ∀ p ∈ pre, s.sleepAddress p ≠ some c)
    (enough : post.length < fuel) :
    ∃ s', s.wakeupLoop (sleepHash c) c fuel (slotAfter (sleepHash c) pre) = some s' ∧
      Linked s' ∧ Woken c s s' := by
  induction post generalizing pre s l fuel with
  | nil =>
    obtain ⟨fuel, rfl⟩ := Nat.exists_eq_add_one.mpr (Nat.zero_lt_of_lt enough)
    have none : ∀ p, s.sleepAddress p ≠ some c := by
      intro p set
      have inside := (on.mem_iff _ p).mpr ⟨c, set, rfl⟩
      rw [split, append_nil] at inside
      exact missed p inside set
    refine ⟨s, ?_, ⟨⟨l, on⟩, queue⟩, fun p => ?_, fun p => ?_⟩
    · rw [wakeupLoop, on.represents.read_slotAfter split]
      rfl
    · rw [if_neg (none p)]
    · rw [if_neg fun both => none p both.1]
  | cons p post ih =>
    obtain ⟨fuel, rfl⟩ := Nat.exists_eq_add_one.mpr (Nat.zero_lt_of_lt enough)
    have enough : post.length < fuel := by simpa using enough
    rw [wakeupLoop, on.represents.read_slotAfter split]
    simp only [List.head?_cons]
    split
    case isTrue found =>
      -- the slot now holds the process after `p`
      have table := wakeHook_sleepHashTable on split
      have rest := on.unlink split
      rw [← table, ← (wake_sleepAddress s p).1] at rest
      obtain ⟨s', ran, linked, woken⟩ := ih rest (wake_onQueue queue) (update_self ..)
        (fun q inside => by
          rw [show ((s.wake p).unhook _ _ p).sleepAddress = _ from (wake_sleepAddress s p).1]
          by_cases self : q = p
          · simp [self]
          · simpa [self] using missed q inside) enough
      exact ⟨s', ran, linked, woken.step found⟩
    case isFalse other =>
      have further : l (sleepHash c) = (pre ++ [p]) ++ post := by simp [split]
      have slot : slotAfter (sleepHash c) (pre ++ [p]) = (.next p : Slot Nat (Fin n)) := by
        rw [slotAfter, List.getLast?_concat]
      rw [← slot]
      exact ih on queue further
        (forall_mem_append.mpr ⟨missed, forall_mem_singleton.mpr other⟩) enough

/-- `wakeup` ends; nobody is left on the channel, and who slept on it runs. -/
theorem wakeup_eq (linked : Linked s) : ∃ s', s.wakeup c = some s' ∧ Linked s' ∧ Woken c s s' := by
  obtain ⟨l, on⟩ := linked.1
  exact wakeupLoop_eq on linked.2 (show l _ = [] ++ l _ from rfl) (fun _ inside => nomatch inside)
    (Nat.lt_succ_of_le (length_le on.represents _))

end Functions

end Argentum.Kernel.Sleep
