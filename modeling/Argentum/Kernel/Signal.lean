/-
# Kernel.Signal — pending and blocked signals

The signal state of one process: `send_sig`, `rt_sigprocmask`, `issig` and `psig` on the way back
to user mode, and `rt_sigreturn`. `issig` looks at the blocked mask once; from then on it and
`psig` scan all pending signals, blocked or not.

`blocked_signals`: while a signal is blocked it is not delivered and stays pending, in every run
whose returns to user mode meet `SafeReturn`: nothing is pending but blocked signals, or every blocked
one comes behind a signal at which the scan ends. Otherwise it may be delivered
(`blocked_signal_delivered`). Sending `SIGCONT` discards stop signals, and the other way round, also
blocked ones.
-/
import Argentum.Lib.Machine

namespace Argentum.Kernel.Signal

open Lib.Machine List

/-! ## Signals -/

def sigFpe : Nat := 8
def sigKill : Nat := 9
def sigSegv : Nat := 11
def sigChld : Nat := 17
def sigCont : Nat := 18
def sigUrg : Nat := 23
def sigWinch : Nat := 28

def nsig : Nat := 32

/-- `SIGSTOP`, `SIGTSTP`, `SIGTTIN` and `SIGTTOU`. -/
def stopSignals : List Nat := [19, 20, 21, 22]

/-- The loop `for(signum = 1; signum < NSIG; signum++)`. -/
def signals : List Nat := List.range' 1 (nsig - 1)

abbrev SigSet := BitVec 32

def bit (signum : Nat) : SigSet := BitVec.twoPow 32 (signum - 1)

def SigSet.has (set : SigSet) (signum : Nat) : Bool := set.getLsbD (signum - 1)

/-- `SIG_BLOCKABLE`: all but `SIGKILL` and `SIGSTOP`. -/
def blockable : SigSet := ~~~(bit sigKill ||| bit 19)

section Sets

variable {set : SigSet} {s t : Nat}

theorem mem_signals : s ∈ signals ↔ 0 < s ∧ s < nsig := by
  simp only [signals, mem_range'_1]
  omega

theorem has_clear (held : set.has s = true) (inRange : s ∈ signals) (positive : 0 < t) (other : s ≠ t) :
    (set &&& ~~~bit t).has s = true := by
  have range := mem_signals.mp inRange
  unfold nsig at range
  have within : s - 1 < 32 := by omega
  have apart : s - 1 ≠ t - 1 := by omega
  simp only [SigSet.has] at held
  simp [SigSet.has, bit, apart, within, held]

theorem has_or (kept : set.has s = true) (other : SigSet) : (set ||| other).has s = true := by
  simp [SigSet.has] at kept ⊢
  exact .inl kept

theorem signals_sorted : signals.Pairwise (· < ·) := by decide

end Sets

/-! ## The process -/

inductive Handler
  | dfl
  | ign
  | user (address : Nat)
  deriving DecidableEq

/-- `struct sigaction`, without the mask and the restorer, which the kernel does not use. -/
structure Action where
  handler : Handler
  flags : BitVec 32
  deriving DecidableEq

def saNoDefer : BitVec 32 := 0x40000000

def saResetHand : BitVec 32 := 0x80000000

structure Proc where
  pending : SigSet
  blocked : SigSet
  executing : SigSet
  action : Nat → Action
  /-- `PROC_STOPPED`. -/
  stopped : Bool
  /-- `INIT` before its first `exec`. -/
  init : Bool
  /-- `PF_KPROC`. -/
  kproc : Bool
  /-- Has not gone through `do_exit`. -/
  alive : Bool
  /-- The signals whose handler was started or whose default action was taken, the last one first. -/
  delivered : List Nat

namespace Proc

variable (p : Proc)

variable (signum : Nat) (stack writable : Bool)

def clear : Proc := { p with pending := p.pending &&& ~~~bit signum }

/-- The first `switch` of `send_sig`. -/
def discard : Proc :=
  if signum = sigKill ∨ signum = sigCont then
    stopSignals.foldl clear { p with stopped := false }
  else if signum ∈ stopSignals then p.clear sigCont
  else p

/-- The second one: some signals cannot be ignored. -/
def force : Proc :=
  if (signum = sigFpe ∨ signum = sigSegv) ∧ (p.action signum).handler = .ign then
    { p with action := Function.update p.action signum
              { p.action signum with handler := .dfl } }
  else p

def sendSig : Proc :=
  if nsig ≤ signum ∨ p.kproc = true ∨ signum = 0 then p
  else
    let p := (p.discard signum).force signum
    match (p.action signum).handler with
    | .dfl =>
      if p.init = true ∨ signum ∈ [sigCont, sigWinch, sigChld, sigUrg] then p
      else { p with pending := p.pending ||| bit signum }
    | .ign => p
    | .user _ => { p with pending := p.pending ||| bit signum }

/-- `how` is `SIG_BLOCK`, `SIG_UNBLOCK` or `SIG_SETMASK`; others are refused. -/
def rtSigprocmask (how : Nat) (mask : SigSet) : Proc :=
  match how with
  | 0 => { p with blocked := p.blocked ||| (mask &&& blockable) }
  | 1 => { p with blocked := p.blocked &&& ~~~(mask &&& blockable) }
  | 2 => { p with blocked := mask &&& blockable }
  | _ => p

def rtSigreturn : Proc :=
  if signum < 1 ∨ nsig ≤ signum then p
  else { p with blocked := p.blocked &&& ~~~p.executing, executing := 0 }

/-! ## Delivery -/

/-- A pending signal that `issig` throws away. -/
def ignored : Bool :=
  match (p.action signum).handler with
  | .ign => true
  | .dfl => signum = sigChld
  | .user _ => false

/-- The loop of `issig`: what is pending afterwards, and the result. -/
def issigLoop : List Nat → SigSet → SigSet × Nat
  | [], pending => (pending, 0)
  | s :: rest, pending =>
    if pending.has s then
      if p.ignored s then issigLoop rest (pending &&& ~~~bit s) else (pending, s)
    else issigLoop rest pending

def issig : Proc × Nat :=
  if p.pending &&& ~~~p.blocked = 0 then (p, 0)
  else
    let (pending, signum) := p.issigLoop signals p.pending
    ({ p with pending := pending }, signum)

def doExit : Proc :=
  { p with alive := false
           pending := 0
           blocked := 0
           executing := 0
           delivered := signum :: p.delivered }

/-- A handler is set up. `stack`: there is a region at the stack pointer; `writable`: the trampoline can
be written there. -/
def startHandler : Proc :=
  if !stack then p.doExit signum
  else
    let p :=
      { p with executing := bit signum
               blocked := if (p.action signum).flags &&& saNoDefer = 0 then p.blocked ||| bit signum
                 else p.blocked }
    if !writable then p.doExit signum
    else
      { p with action := if (p.action signum).flags &&& saResetHand = 0 then p.action
                 else Function.update p.action signum { p.action signum with handler := .dfl }
               delivered := signum :: p.delivered }

/-- `psig`. An ignored signal that is still pending is taken for one with a handler. -/
def psigLoop (stack writable : Bool) : List Nat → Proc → Proc
  | [], p => p
  | s :: rest, p =>
    if p.pending.has s then
      let p := p.clear s
      if (p.action s).handler ≠ .dfl then p.startHandler s stack writable
      else
        let done := { p with delivered := s :: p.delivered }
        if s = sigCont then psigLoop stack writable rest { done with stopped := false }
        else if s ∈ stopSignals then psigLoop stack writable rest { done with stopped := true }
        else if s = sigChld then psigLoop stack writable rest done
        else p.doExit s
    else psigLoop stack writable rest p

/-- `check_signals64`. -/
def checkSignals : Proc :=
  if p.issig.2 ≠ 0 then psigLoop stack writable signals p.issig.1 else p.issig.1

end Proc

/-! ## The machine -/

inductive Label
  | send (signum : Nat)
  | procmask (how : Nat) (mask : SigSet)
  | sigreturn (signum : Nat)
  /-- `issig` from a system call that sleeps. -/
  | sleeps
  | userReturn (stack writable : Bool)
  deriving DecidableEq

def step (p : Proc) : Label → Option Proc
  | .send signum => if p.alive then some (p.sendSig signum) else none
  | .procmask how mask => if p.alive then some (p.rtSigprocmask how mask) else none
  | .sigreturn signum => if p.alive then some (p.rtSigreturn signum) else none
  | .sleeps => if p.alive then some p.issig.1 else none
  | .userReturn stack writable => if p.alive then some (p.checkSignals stack writable) else none

/-- `psig` goes no further than this signal: it has a handler, or its default action ends the
process. -/
def Proc.endsScan (p : Proc) (signum : Nat) : Bool :=
  match (p.action signum).handler with
  | .user _ => true
  | .ign => false
  | .dfl => signum ≠ sigCont && signum ∉ stopSignals && signum ≠ sigChld

/-- Only blocked signals are pending, or each of them comes behind one at which `stops` holds. -/
def Shielded (p : Proc) (stops : Nat → Bool) : Prop :=
  p.pending &&& ~~~p.blocked = 0 ∨
    ∀ s ∈ signals, p.pending.has s = true → p.blocked.has s = true →
      ∃ t ∈ signals, t < s ∧ p.pending.has t = true ∧ stops t = true

/-- What `send_sig` discards. -/
def discarded (signum : Nat) : List Nat :=
  if signum = sigKill ∨ signum = sigCont then stopSignals
  else if signum ∈ stopSignals then [sigCont] else []

def SafeLabel (p : Proc) : Label → Prop
  | .send signum => ∀ s ∈ discarded signum, p.pending.has s = true → p.blocked.has s = false
  | .sleeps => Shielded p fun t => !p.ignored t
  | .userReturn _ _ => Shielded p p.endsScan
  | .procmask _ _ | .sigreturn _ => True

/-! ## Scanning -/

/-- `s` has not been delivered since `p`, and is still pending. -/
def Spared (s : Nat) (p p' : Proc) : Prop :=
  p'.delivered.count s = p.delivered.count s ∧ (p'.alive = true → p'.pending.has s = true)

open Proc

section Scan

variable {p : Proc} {s t : Nat} {scan : List Nat} {stack writable : Bool} {signum : Nat}

theorem Spared.of_pending (pending : p.pending.has s = true) : Spared s p p := ⟨rfl, fun _ => pending⟩

theorem Spared.exit (other : signum ≠ s) : Spared s p (p.doExit signum) :=
  ⟨count_cons_of_ne other, nofun⟩

/-- `issig` does not come to a signal behind one that it returns. -/
theorem issigLoop_keeps {pending : SigSet} (range : ∀ u ∈ scan, u ∈ signals)
    (sorted : scan.Pairwise (· < ·)) (inRange : s ∈ signals) (inScan : t ∈ scan) (before : t < s)
    (live : p.ignored t = false) (pendingT : pending.has t = true) (pendingS : pending.has s = true) :
    (p.issigLoop scan pending).1.has t = true ∧ (p.issigLoop scan pending).1.has s = true ∧
      (p.issigLoop scan pending).2 ≠ 0 := by
  induction scan generalizing pending with
  | nil => cases inScan
  | cons u rest ih =>
    obtain ⟨inSignals, range'⟩ := forall_mem_cons.mp range
    have rangeU := mem_signals.mp inSignals
    obtain ⟨first, sorted⟩ := pairwise_cons.mp sorted
    rw [issigLoop]
    split
    case isTrue =>
      split
      case isTrue thrown =>
        -- the signal that is thrown away comes before `t`
        have other : t ≠ u := by
          rintro rfl
          rw [live] at thrown
          cases thrown
        have inRest := mem_of_ne_of_mem other inScan
        have below := first t inRest
        exact ih range' sorted inRest (has_clear pendingT (range' t inRest) rangeU.1 other)
          (has_clear pendingS inRange rangeU.1 (by omega))
      case isFalse => exact ⟨pendingT, pendingS, by simp only; omega⟩
    case isFalse absent =>
      have inRest := mem_of_ne_of_mem (by rintro rfl; exact absent pendingT) inScan
      exact ih range' sorted inRest pendingT pendingS

theorem startHandler_spares (other : signum ≠ s)
    (pending : p.pending.has s = true) : Spared s p (p.startHandler signum stack writable) := by
  unfold startHandler
  split
  · exact Spared.exit other
  · simp only
    split
    · exact ⟨count_cons_of_ne other, nofun⟩
    · exact ⟨count_cons_of_ne other, fun _ => pending⟩

/-- `psig` does not come to a signal behind one at which its scan ends. -/
theorem psigLoop_spares (range : ∀ u ∈ scan, u ∈ signals)
    (sorted : scan.Pairwise (· < ·)) (inRange : s ∈ signals) (inScan : t ∈ scan) (before : t < s)
    (ends : p.endsScan t = true) (pendingT : p.pending.has t = true)
    (pendingS : p.pending.has s = true) :
    Spared s p (psigLoop stack writable scan p) := by
  induction scan generalizing p with
  | nil => cases inScan
  | cons u rest ih =>
    obtain ⟨inSignals, range'⟩ := forall_mem_cons.mp range
    have rangeU := mem_signals.mp inSignals
    obtain ⟨first, sorted⟩ := pairwise_cons.mp sorted
    rw [psigLoop]
    split
    case isFalse absent =>
      have inRest := mem_of_ne_of_mem (by rintro rfl; exact absent pendingT) inScan
      exact ih range' sorted inRest ends pendingT pendingS
    case isTrue =>
      have other : u ≠ s := by
        rcases mem_cons.mp inScan with rfl | inRest
        · omega
        · have := first t inRest
          omega
      have clearS : (p.clear u).pending.has s = true := by
        exact has_clear pendingS inRange rangeU.1 (Ne.symm other)
      -- a signal with a default action that lets the scan go on is not `t`
      have goesOn : ∀ q : Proc, q.pending = (p.clear u).pending → q.action = p.action →
          q.delivered = u :: p.delivered → p.endsScan u = false →
          Spared s p (psigLoop stack writable rest q) := by
        intro q samePending sameAction sameLog passes
        have apart : t ≠ u := by
          rintro rfl
          rw [ends] at passes
          cases passes
        have inRest := mem_of_ne_of_mem apart inScan
        have endsQ : q.endsScan t = true := by rw [← ends, endsScan, endsScan, sameAction]
        have pendingQ : q.pending.has t = true := by
          rw [samePending]
          exact has_clear pendingT (range' t inRest) rangeU.1 apart
        obtain ⟨count, kept⟩ := ih range' sorted inRest endsQ pendingQ (samePending ▸ clearS)
        refine ⟨count.trans ?_, kept⟩
        rw [sameLog, count_cons_of_ne other]
      simp only
      split
      case isTrue => exact startHandler_spares other clearS
      case isFalse dfl =>
        have dfl : (p.action u).handler = .dfl := by simpa [clear] using dfl
        have ends' : p.endsScan u = (u ≠ sigCont && u ∉ stopSignals && u ≠ sigChld) := by
          rw [endsScan, dfl]
        split
        case isTrue isCont => exact goesOn _ rfl rfl rfl (by rw [ends']; simp [isCont])
        split
        case isTrue isStop => exact goesOn _ rfl rfl rfl (by rw [ends']; simp [isStop])
        split
        case isTrue isChld => exact goesOn _ rfl rfl rfl (by rw [ends']; simp [isChld])
        case isFalse => exact Spared.exit other

theorem ignored_of_endsScan (ends : p.endsScan t = true) : p.ignored t = false := by
  unfold endsScan at ends
  unfold ignored
  split at ends
  · simp_all
  · cases ends
  · simp_all

variable (inRange : s ∈ signals) (pending : p.pending.has s = true)
  (blocked : p.blocked.has s = true)

include inRange pending blocked

theorem issig_spares (safe : Shielded p fun t => !p.ignored t) : Spared s p p.issig.1 := by
  unfold issig
  split
  case isTrue => exact Spared.of_pending pending
  case isFalse some =>
    obtain ⟨t, inScan, before, pendingT, live⟩ := safe.resolve_left some s inRange pending blocked
    have kept := issigLoop_keeps (fun _ => id) signals_sorted inRange inScan before
      (by simpa using live) pendingT pending
    exact ⟨rfl, fun _ => kept.2.1⟩

theorem checkSignals_spares (safe : Shielded p p.endsScan) :
    Spared s p (p.checkSignals stack writable) := by
  unfold checkSignals
  by_cases none : p.pending &&& ~~~p.blocked = 0
  · have idle : p.issig = (p, 0) := if_pos none
    rw [idle]
    exact Spared.of_pending pending
  · obtain ⟨t, inScan, before, pendingT, ends⟩ := safe.resolve_left none s inRange pending blocked
    obtain ⟨keptT, keptS, found⟩ := issigLoop_keeps (fun _ => id) signals_sorted inRange
      inScan before (ignored_of_endsScan ends) pendingT pending
    have scanned : p.issig = ({ p with pending := (p.issigLoop signals p.pending).1 },
        (p.issigLoop signals p.pending).2) := if_neg none
    rw [scanned, if_pos found]
    exact psigLoop_spares (fun _ => id) signals_sorted inRange inScan before ends keptT keptS

end Scan

/-! ## Sending -/

section Send

variable {p : Proc} {s signum : Nat}

theorem foldl_clear_pending (inRange : s ∈ signals) (list : List Nat) (positive : ∀ t ∈ list, 0 < t)
    (other : s ∉ list) (pending : p.pending.has s = true) :
    (list.foldl clear p).pending.has s = true := by
  induction list generalizing p with
  | nil => exact pending
  | cons t list ih =>
    rw [mem_cons, not_or] at other
    refine ih (forall_mem_of_forall_mem_cons positive) other.2 ?_
    exact has_clear pending inRange (positive t mem_cons_self) other.1

theorem foldl_clear_delivered (list : List Nat) (p : Proc) :
    (list.foldl clear p).delivered = p.delivered := by
  induction list generalizing p with
  | nil => rfl
  | cons t list ih => rw [foldl_cons, ih]; rfl

theorem discard_eq (p : Proc) (signum : Nat) :
    ∃ stopped, p.discard signum =
      (discarded signum).foldl Proc.clear { p with stopped := stopped } := by
  unfold Proc.discard discarded
  split
  · exact ⟨false, rfl⟩
  · split
    · exact ⟨p.stopped, rfl⟩
    · exact ⟨p.stopped, rfl⟩

theorem discarded_positive : ∀ t ∈ discarded signum, 0 < t := by
  intro t member
  unfold discarded at member
  split at member
  · revert t
    decide
  · split at member
    · revert t
      decide
    · cases member

theorem sendSig_spares (inRange : s ∈ signals) (pending : p.pending.has s = true)
    (kept : s ∉ discarded signum) : Spared s p (p.sendSig signum) := by
  unfold sendSig
  split
  · exact Spared.of_pending pending
  simp only
  have left : ((p.discard signum).force signum).pending.has s = true ∧
      ((p.discard signum).force signum).delivered = p.delivered := by
    obtain ⟨stopped, same⟩ := discard_eq p signum
    have cleared := foldl_clear_pending (p := { p with stopped := stopped }) inRange
      (discarded signum) discarded_positive kept pending
    have log := foldl_clear_delivered (discarded signum) { p with stopped := stopped }
    rw [← same] at cleared log
    unfold force
    split
    · exact ⟨cleared, log⟩
    · exact ⟨cleared, log⟩
  obtain ⟨left, log⟩ := left
  split
  · split
    · exact ⟨by rw [log], fun _ => left⟩
    · exact ⟨by rw [log], fun _ => has_or left _⟩
  · exact ⟨by rw [log], fun _ => left⟩
  · exact ⟨by rw [log], fun _ => has_or left _⟩

end Send

/-! ## Every run -/

theorem step_spares {p q q' : Proc} {s : Nat} {a : Label} (inRange : s ∈ signals)
    (spared : Spared s p q) (blocked : q.blocked.has s = true) (safe : SafeLabel q a)
    (taken : step q a = some q') : Spared s p q' := by
  have alive : q.alive = true := by
    cases a <;> simp only [step, Option.ite_none_right_eq_some] at taken <;> exact taken.1
  have pending := spared.2 alive
  have goesOn : Spared s q q' → Spared s p q' := fun next => ⟨next.1.trans spared.1, next.2⟩
  apply goesOn
  cases a <;> simp only [step, alive, if_true, Option.some.injEq] at taken <;> subst taken
  case send signum =>
    refine sendSig_spares inRange pending fun member => ?_
    have := safe s member pending
    rw [blocked] at this
    cases this
  case procmask how mask =>
    unfold rtSigprocmask
    split <;> exact ⟨rfl, fun _ => pending⟩
  case sigreturn signum =>
    unfold rtSigreturn
    split <;> exact ⟨rfl, fun _ => pending⟩
  case sleeps => exact issig_spares inRange pending blocked safe
  case userReturn stack writable => exact checkSignals_spares inRange pending blocked safe

/-- **A signal that is pending and blocked is not delivered and stays pending** for as long as it is
blocked, in every run of safe steps, unless the process ends. -/
theorem blocked_signals (p : Proc) (labels : List Label) (p' : Proc) (s : Nat) (low : 0 < s)
    (high : s < nsig) (pending : p.pending.has s = true)
    (blocked : Guarded step (fun q _ => q.blocked.has s = true) p labels)
    (safe : Guarded step SafeLabel p labels) (ran : run step p labels = some p') :
    p'.delivered.count s = p.delivered.count s ∧ (p'.alive = true → p'.pending.has s = true) := by
  have inRange := mem_signals.mpr ⟨low, high⟩
  have spared := run_inv
    (fun q a q' spared guard taken => step_spares inRange spared guard.1 guard.2 taken)
    (Spared.of_pending pending) (blocked.and safe) ran
  exact spared

/-! ## Poles -/

instance (p : Proc) (stops : Nat → Bool) : Decidable (Shielded p stops) := by
  unfold Shielded
  infer_instance

instance (p : Proc) (a : Label) : Decidable (SafeLabel p a) := by
  cases a <;> unfold SafeLabel <;> infer_instance

/-- `SIGUSR1` (10) and `SIGUSR2` (12) have handlers, and `SIGUSR2` is pending and blocked. -/
def handlers : Proc where
  pending := bit 12
  blocked := bit 12
  executing := 0
  action := fun s => ⟨if s = 10 ∨ s = 12 then .user 0x401000 else .dfl, 0⟩
  stopped := false
  init := false
  kproc := false
  alive := true
  delivered := []

/-- `SIGUSR1` comes and is handled. -/
def handledRun : List Label :=
  [.userReturn true true, .send 10, .sleeps, .userReturn true true, .send 18, .sigreturn 10,
    .procmask 0 (bit 15), .send 15, .userReturn true true]

theorem blocked_signals_handledRun :
    ∃ p', run step handlers handledRun = some p' ∧
      p'.delivered.count 12 = 0 ∧ (p'.alive = true → p'.pending.has 12 = true) := by
  refine exists_run (by decide +kernel) fun p' ran => ?_
  exact blocked_signals handlers handledRun p' 12 (by decide) (by decide) (by decide +kernel)
    (Guarded.of_decide (by decide +kernel)) (Guarded.of_decide (by decide +kernel)) ran

/-- **A blocked signal is delivered**: `SIGUSR1` is blocked and pending when `SIGUSR2` comes. -/
theorem blocked_signal_delivered :
    (run step { handlers with pending := bit 10, blocked := bit 10 }
      [.send 12, .userReturn true true]).any (fun p =>
        p.delivered = [10] && !p.pending.has 10 && p.pending.has 12) = true := by
  decide +kernel

end Argentum.Kernel.Signal
