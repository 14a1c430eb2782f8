/-
# Fs.Locks — advisory locks

`fs/locks.c` keeps the locks of all files in one table of records, each with its inode, its owner
and the operation that made it. `flock` and `fcntl` both end in `flock_inode`, which scans the
table, sleeps on a record that is in its way, and changes a record of the caller or appends one.
Any number of processes make these calls, with the descriptor tables that `close` looks at. A call
is one step up to its sleep.

An exclusive record is never beside a lock of another process (`exclusive_alone`).
`advisory_locks` adds what unlocking, closing and the two kinds of requests promise, for the runs
that stay clear of four paths (`lock_outlives_unlock`).
-/
import Argentum.Kernel.Errno
import Argentum.Lib.Machine

namespace Argentum.Fs.Locks

open Lib.Machine List Function

/-! ## Records -/

def lockSh : BitVec 32 := BitVec.twoPow 32 0

def lockEx : BitVec 32 := BitVec.twoPow 32 1

def lockNb : BitVec 32 := BitVec.twoPow 32 2

def lockUn : BitVec 32 := BitVec.twoPow 32 3

/-- `x & flag`. -/
def has {w : Nat} (x : BitVec w) (flag : BitVec 32) : Bool := x.setWidth 32 &&& flag ≠ 0

/-- `struct flock_file`. -/
structure FlockFile where
  inode : Nat
  type : BitVec 8
  proc : Nat
  deriving DecidableEq

abbrev Table := List FlockFile

def nrFlocks : Nat := 1024 * 5

section

variable (memory : Bool) (table : Table) (p i : Nat) (ltype : Int) (flags : BitVec 32)

def FlockFile.belongs (ff : FlockFile) : Bool := ff.inode = i && ff.proc = p

/-- The record grants something: `flock` also takes operations that name no lock. -/
def FlockFile.isLock (ff : FlockFile) : Bool := has ff.type lockSh || has ff.type lockEx

/-! ## `flock_inode` -/

/-- The scan of `flock_inode`: `none` when a record is in the way, otherwise the place of the
record to change, if any. -/
def scan (op : BitVec 32) (p i : Nat) : Nat → Option Nat → Table → Option (Option Nat)
  | _, new, [] => some new
  | n, new, ff :: rest =>
    if ff.inode = i then
      if has op lockSh && has ff.type lockEx then
        if ff.proc = p then some (some n) else none
      else if has op lockEx then
        if ff.proc = p then scan op p i (n + 1) (some n) rest else none
      else scan op p i (n + 1) new rest
    else scan op p i (n + 1) new rest

/-- `lock` is what `F_GETLK` fills in. -/
inductive Reply
  | ok
  | error (e : Errno)
  | lock (type : Int) (proc : Option Nat)
  deriving DecidableEq

inductive Outcome
  | returns (table : Table) (reply : Reply)
  | sleeps
  deriving DecidableEq

/-- `get_flock_file` and `release_flock`. -/
def releaseFirst : Table := table.eraseP (FlockFile.belongs p i)

/-- `flock_inode`; `memory` says whether `kmalloc` has room for a record. -/
def flockInode (op : BitVec 32) : Outcome :=
  if has op lockUn then .returns (releaseFirst table p i) .ok
  else match scan op p i 0 none table with
    | none => if has op lockNb then .returns table (.error .eagain) else .sleeps
    | some (some n) => .returns (table.set n ⟨i, op.setWidth 8, p⟩) .ok
    | some none =>
      if memory && table.length + 1 ≤ nrFlocks then
        .returns (table ++ [⟨i, op.setWidth 8, p⟩]) .ok
      else .returns table (.error .enolck)

/-- `flock_release_inode`. -/
def flockReleaseInode : Table :=
  table.filter fun ff => !ff.belongs p i

/-! ## The calls -/

def fRdlck : Int := 0

def fWrlck : Int := 1

def fUnlck : Int := 2

/-- The `l_type` of a `struct flock` as an operation. -/
def lockOp : Option (BitVec 32) :=
  if ltype = fRdlck then some lockSh
  else if ltype = fWrlck then some lockEx
  else if ltype = fUnlck then some lockUn
  else none

inductive Call
  | flock (op : BitVec 32)
  | getlk
  | setlk (ltype : Int)
  | setlkw (ltype : Int)
  deriving DecidableEq

/-- `F_GETLK`: the first record of the inode. -/
def getLk (i : Nat) : Reply :=
  match table.find? fun ff => ff.inode = i with
  | some ff => .lock (if has ff.type lockSh then fRdlck else fWrlck) (some ff.proc)
  | none => .lock fUnlck none

/-- What `posix_lock` does with `F_SETLK` and `F_SETLKW`. -/
def posixLock : Outcome :=
  match lockOp ltype with
  | some op => flockInode memory table p i (op ||| flags)
  | none => .returns table (.error .einval)

def Call.perform : Call → Outcome
  | .flock op => flockInode memory table p i op
  | .getlk => .returns table (getLk table i)
  | .setlk ltype => posixLock memory table p i ltype 0
  | .setlkw ltype => posixLock memory table p i ltype lockNb

end

def Call.nonBlocking : Call → Bool
  | .flock op => has op lockNb
  | .getlk => true
  | .setlk _ => true
  | .setlkw _ => false

def Call.unlocks : Call → Bool
  | .flock op => has op lockUn
  | .getlk => false
  | .setlk ltype => ltype = fUnlck
  | .setlkw ltype => ltype = fUnlck

/-! ## The machine -/

/-- `fds` are the descriptors of a process, each with its entry of `fd_table`; `inode` and `count`
are the fields of an entry; `waiting` is the call in which a process sleeps, and `log` the calls
that have returned. -/
structure State where
  table : Table
  fds : Nat → List (Nat × Nat)
  inode : Nat → Nat
  count : Nat → Int
  waiting : Nat → Option (Nat × Call)
  log : List (Call × Reply)

inductive Label
  | openFile (p ufd fd i : Nat)
  | dup (p ufd new : Nat)
  | fork (p child : Nat)
  | call (p ufd : Nat) (c : Call) (memory : Bool)
  | retry (p : Nat) (memory : Bool)
  | interrupt (p : Nat)
  | close (p ufd : Nat)
  deriving DecidableEq

namespace State

variable (s : State) (p ufd : Nat)

def fd? : Option Nat := (s.fds p).lookup ufd

def fileOf : Option Nat := (s.fd? p ufd).map s.inode

def settle (p i : Nat) (c : Call) : Outcome → State
  | .returns table reply =>
    { s with
      table := table
      waiting := update s.waiting p none
      log := (c, reply) :: s.log }
  | .sleeps => { s with waiting := update s.waiting p (some (i, c)) }

def setFds (p : Nat) (fds : List (Nat × Nat)) : State :=
  { s with fds := update s.fds p fds }

def openFile (p ufd fd i : Nat) : State :=
  { s.setFds p ((ufd, fd) :: s.fds p) with
    inode := update s.inode fd i
    count := update s.count fd 1 }

def dup (p fd new : Nat) : State :=
  { s.setFds p ((new, fd) :: s.fds p) with
    count := update s.count fd (s.count fd + 1) }

def fork (p child : Nat) : State :=
  { s.setFds child (s.fds p) with
    count := fun fd => s.count fd + ((s.fds p).map Prod.snd).count fd }

def withoutUfd : List (Nat × Nat) :=
  (s.fds p).filter fun d => d.1 ≠ ufd

/-- `sys_close`. -/
def close (p ufd fd : Nat) : State :=
  let closed := { s.setFds p (s.withoutUfd p ufd) with
    count := update s.count fd (s.count fd - 1) }
  if s.count fd - 1 ≠ 0 then closed
  else { closed with table := flockReleaseInode s.table p (s.inode fd) }

end State

/-- A process that sleeps in a call does nothing else until the call returns. -/
def step (s : State) : Label → Option State
  | .openFile p ufd fd i =>
    if s.waiting p = none ∧ s.fd? p ufd = none ∧ s.count fd = 0 then some (s.openFile p ufd fd i)
    else none
  | .dup p ufd new =>
    match s.fd? p ufd with
    | some fd =>
      if s.waiting p = none ∧ s.fd? p new = none then some (s.dup p fd new) else none
    | none => none
  | .fork p child =>
    if s.waiting p = none ∧ s.waiting child = none ∧ s.fds child = [] then some (s.fork p child)
    else none
  | .call p ufd c memory =>
    match s.waiting p, s.fileOf p ufd with
    | none, some i => some (s.settle p i c (c.perform memory s.table p i))
    | none, none => some { s with log := (c, .error .ebadf) :: s.log }
    | some _, _ => none
  | .retry p memory =>
    match s.waiting p with
    | some (i, c) => some (s.settle p i c (c.perform memory s.table p i))
    | none => none
  | .interrupt p =>
    match s.waiting p with
    | some (i, c) => some (s.settle p i c (.returns s.table (.error .eintr)))
    | none => none
  | .close p ufd =>
    match s.waiting p, s.fd? p ufd with
    | none, some fd => some (s.close p ufd fd)
    | _, _ => none

/-! ## What is promised -/

section

variable (table : Table) (p i : Nat) (op : BitVec 32)

/-- No lock of another process beside an exclusive one. -/
def ExclusiveAlone : Prop :=
  ∀ ff ∈ table, ∀ other ∈ table, ff.inode = other.inode → has ff.type lockEx = true →
    other.isLock = true → ff.proc = other.proc

variable (s : State)

/-- No call sleeps that must not, and none fails because it would. -/
structure Modes : Prop where
  asleep : ∀ p i c, s.waiting p = some (i, c) → c.nonBlocking = false
  replies : ∀ c reply, (c, reply) ∈ s.log → c.nonBlocking = false → reply ≠ .error .eagain

def Holds : Prop := ∃ ff ∈ table, ff.belongs p i = true

/-- The process has another descriptor of the file. -/
def State.another (p ufd i : Nat) : Bool :=
  (s.withoutUfd p ufd).any fun d => s.inode d.2 = i

/-- The process and the file that a step unlocks or closes. -/
def releases : Label → Option (Nat × Nat)
  | .call p ufd c _ => if c.unlocks then (s.fileOf p ufd).map fun i => (p, i) else none
  | .close p ufd =>
    (s.fileOf p ufd).bind fun i => if s.another p ufd i then none else some (p, i)
  | _ => none

/-- A record of another process is in the way of `op`. -/
def Conflicts : Prop :=
  ∃ ff ∈ table, ff.inode = i ∧ ff.proc ≠ p ∧ (has op lockEx || has ff.type lockEx) = true

/-- The process has no second record for an unlock to leave behind. -/
def Single : Prop := table.countP (FlockFile.belongs p i) ≤ 1

/-- `fcntl` as it may be called: its lock is free, its unlock has one record to release. -/
def SafeSet (ltype : Int) : Prop :=
  match lockOp ltype with
  | some op => if has op lockUn then Single table p i else ¬Conflicts table p i op
  | none => True

def Call.Safe : Call → Prop
  | .flock op => has op lockUn = true → Single table p i
  | .getlk => True
  | .setlk ltype => SafeSet table p i ltype
  | .setlkw ltype => SafeSet table p i ltype

/-- The last descriptor that a process has of a file is the last reference to its open file, if
the process has a lock. -/
def SafeClose (p ufd fd : Nat) : Prop :=
  s.another p ufd (s.inode fd) = true ∨ s.count fd = 1 ∨ ¬Holds s.table p (s.inode fd)

def SafeLabel : Label → Prop
  | .call p ufd c _ => ∀ i ∈ s.fileOf p ufd, c.Safe s.table p i
  | .close p ufd => ∀ fd ∈ s.fd? p ufd, SafeClose s p ufd fd
  | _ => True

/-! ## Flags -/

theorem has_twoPow {w : Nat} (x : BitVec w) {n : Nat} (small : n < 32) :
    has x (BitVec.twoPow 32 n) = x.getLsbD n := by
  have nonzero : BitVec.twoPow 32 n ≠ 0#32 := by
    intro zero
    have bit := congrArg (fun y => y.getLsbD n) zero
    simp [small] at bit
  rw [has, BitVec.and_twoPow, BitVec.getLsbD_setWidth, decide_eq_true small]
  cases x.getLsbD n <;> simp [nonzero]

/-- The type of a record keeps the flags of its operation. -/
theorem has_type {n : Nat} (small : n < 8) :
    has (op.setWidth 8) (BitVec.twoPow 32 n) = has op (BitVec.twoPow 32 n) := by
  rw [has_twoPow _ (by omega), has_twoPow _ (by omega), BitVec.getLsbD_setWidth,
    decide_eq_true small, Bool.true_and]

end

/-! ## The scan -/

open FlockFile

section Scan

variable {op : BitVec 32} {p i n : Nat} {new found : Option Nat} {table table' : Table}

theorem scan_none (stopped : scan op p i n new table = none) : Conflicts table p i op := by
  induction table generalizing n new with
  | nil => cases stopped
  | cons ff rest ih =>
    have later : ∀ {m : Nat} {place : Option Nat}, scan op p i m place rest = none →
        Conflicts (ff :: rest) p i op := by
      intro m place stopped
      obtain ⟨other, member, blocks⟩ := ih stopped
      exact ⟨other, mem_cons_of_mem ff member, blocks⟩
    rw [scan] at stopped
    split at stopped
    case isFalse => exact later stopped
    case isTrue same =>
      split at stopped
      case isTrue exclusive =>
        split at stopped
        case isTrue => cases stopped
        case isFalse foreign =>
          rw [Bool.and_eq_true] at exclusive
          exact ⟨ff, mem_cons_self, same, foreign, by simp [exclusive.2]⟩
      case isFalse =>
        split at stopped
        case isFalse => exact later stopped
        case isTrue exclusive =>
          split at stopped
          case isTrue => exact later stopped
          case isFalse foreign =>
            exact ⟨ff, mem_cons_self, same, foreign, by simp [exclusive]⟩

/-- A scan that was not stopped came to an exclusive record of the process or met nothing in the
way. -/
theorem scan_some (passed : scan op p i n new table = some found) :
    (∃ ff ∈ table, ff.belongs p i = true ∧ has ff.type lockEx = true) ∨
      ∀ ff ∈ table, ff.inode = i →
        (has op lockEx = true → ff.proc = p) ∧
          (has op lockSh = true → has ff.type lockEx = false) := by
  induction table generalizing n new with
  | nil => exact .inr fun _ member => nomatch member
  | cons ff rest ih =>
    have later : ∀ {m : Nat} {place : Option Nat}, scan op p i m place rest = some found →
        (ff.inode = i → (has op lockEx = true → ff.proc = p) ∧
          (has op lockSh = true → has ff.type lockEx = false)) →
        (∃ other ∈ ff :: rest, other.belongs p i = true ∧ has other.type lockEx = true) ∨
          ∀ other ∈ ff :: rest, other.inode = i →
            (has op lockEx = true → other.proc = p) ∧
              (has op lockSh = true → has other.type lockEx = false) := by
      intro m place passed first
      rcases ih passed with ⟨other, member, own⟩ | rest
      · exact .inl ⟨other, mem_cons_of_mem ff member, own⟩
      · exact .inr (forall_mem_cons.mpr ⟨first, rest⟩)
    rw [scan] at passed
    split at passed
    case isFalse other => exact later passed fun same => absurd same other
    case isTrue same =>
      split at passed
      case isTrue exclusive =>
        split at passed
        case isFalse => cases passed
        case isTrue own =>
          rw [Bool.and_eq_true] at exclusive
          exact .inl ⟨ff, mem_cons_self, by simp [belongs, same, own], exclusive.2⟩
      case isFalse compatible =>
        have unshared : has op lockSh = true → has ff.type lockEx = false := by
          simpa using compatible
        split at passed
        case isFalse plain =>
          exact later passed fun _ => ⟨fun exclusive => absurd exclusive plain, unshared⟩
        case isTrue =>
          split at passed
          case isTrue own => exact later passed fun _ => ⟨fun _ => own, unshared⟩
          case isFalse => cases passed

variable (alone : ExclusiveAlone table)

include alone

/-- What a granted operation finds of the other processes. -/
theorem granted (passed : scan op p i n new table = some found)
    {ff : FlockFile} (member : ff ∈ table) (same : ff.inode = i) (foreign : ff.proc ≠ p) :
    (has op lockEx = true → ff.isLock = false) ∧
      (has op lockSh = true → has ff.type lockEx = false) := by
  rcases scan_some passed with ⟨own, inTable, belongs, exclusive⟩ | free
  · have noLock : ff.isLock = false := by
      rw [FlockFile.belongs, Bool.and_eq_true, decide_eq_true_eq, decide_eq_true_eq] at belongs
      by_contra lock
      rw [Bool.not_eq_false] at lock
      have sameProc := alone own inTable ff member (belongs.1.trans same.symm) exclusive lock
      exact foreign (sameProc.symm.trans belongs.2)
    exact ⟨fun _ => noLock, fun _ => (Bool.or_eq_false_iff.mp noLock).2⟩
  · have here := free ff member same
    exact ⟨fun exclusive => absurd (here.1 exclusive) foreign, here.2⟩

/-- Putting the record of a granted operation in the table. -/
theorem ExclusiveAlone.place (passed : scan op p i n new table = some found)
    (members : ∀ ff ∈ table', ff ∈ table ∨ ff = ⟨i, op.setWidth 8, p⟩) : ExclusiveAlone table' := by
  have sh := has_type op (n := 0) (by decide)
  have ex := has_type op (n := 1) (by decide)
  intro ff inTable other otherIn same exclusive lock
  rcases members ff inTable with old | rfl
  · rcases members other otherIn with otherOld | rfl
    · exact alone ff old other otherOld same exclusive lock
    by_contra foreign
    obtain ⟨whenEx, whenSh⟩ := granted alone passed old same foreign
    rw [isLock, Bool.or_eq_true] at lock
    rcases lock with shared | excl
    · rw [whenSh (sh.symm.trans shared)] at exclusive
      cases exclusive
    · have noLock := whenEx (ex.symm.trans excl)
      rw [(Bool.or_eq_false_iff.mp noLock).2] at exclusive
      cases exclusive
  · rcases members other otherIn with otherOld | rfl
    · by_contra foreign
      obtain ⟨whenEx, -⟩ := granted alone passed otherOld same.symm (Ne.symm foreign)
      rw [whenEx (ex.symm.trans exclusive)] at lock
      cases lock
    · rfl

theorem ExclusiveAlone.subset (fewer : table' ⊆ table) : ExclusiveAlone table' :=
  fun ff member other otherIn => alone ff (fewer member) other (fewer otherIn)

end Scan

/-! ## The calls -/

open Outcome

section Calls

variable {memory : Bool} {table table' : Table} {p i : Nat} {op : BitVec 32} {reply : Reply}
  {c : Call} {ltype : Int} {flags : BitVec 32}

theorem flockInode_alone (alone : ExclusiveAlone table)
    (returned : flockInode memory table p i op = .returns table' reply) :
    ExclusiveAlone table' := by
  rw [flockInode] at returned
  split at returned
  case isTrue =>
    obtain ⟨rfl, rfl⟩ := returns.inj returned
    exact alone.subset eraseP_subset
  case isFalse =>
    split at returned
    case h_1 =>
      split at returned
      · obtain ⟨rfl, rfl⟩ := returns.inj returned
        exact alone
      · cases returned
    case h_2 n passed =>
      obtain ⟨rfl, rfl⟩ := returns.inj returned
      exact alone.place passed fun ff member => mem_or_eq_of_mem_set member
    case h_3 passed =>
      split at returned
      · obtain ⟨rfl, rfl⟩ := returns.inj returned
        exact alone.place passed fun ff member => by simpa using member
      · obtain ⟨rfl, rfl⟩ := returns.inj returned
        exact alone

/-- When `flock_inode` sleeps. -/
theorem flockInode_sleeps (sleeps : flockInode memory table p i op = .sleeps) :
    has op lockUn = false ∧ has op lockNb = false ∧ Conflicts table p i op := by
  rw [flockInode] at sleeps
  split at sleeps
  case isTrue => cases sleeps
  case isFalse lock =>
    split at sleeps
    case h_1 stopped =>
      split at sleeps
      case isTrue => cases sleeps
      case isFalse blocking =>
        exact ⟨by simpa using lock, by simpa using blocking, scan_none stopped⟩
    case h_2 => cases sleeps
    case h_3 => split at sleeps <;> cases sleeps

/-- When `flock_inode` fails with `-EWOULDBLOCK`. -/
theorem flockInode_eagain
    (failed : flockInode memory table p i op = .returns table' (.error .eagain)) :
    has op lockUn = false ∧ has op lockNb = true ∧ Conflicts table p i op := by
  rw [flockInode] at failed
  split at failed
  case isTrue => cases failed
  case isFalse lock =>
    split at failed
    case h_1 stopped =>
      split at failed
      case isTrue wait => exact ⟨by simpa using lock, wait, scan_none stopped⟩
      case isFalse => cases failed
    case h_2 => cases failed
    case h_3 => split at failed <;> cases failed

theorem flockInode_unlock (unlock : has op lockUn = true) :
    flockInode memory table p i op = .returns (releaseFirst table p i) .ok :=
  if_pos unlock

/-- `LOCK_NB` changes nothing else of the operations of `posix_lock`. -/
theorem lockOp_or (known : lockOp ltype = some op) :
    has (op ||| lockNb) lockUn = has op lockUn ∧ has (op ||| lockNb) lockEx = has op lockEx := by
  unfold lockOp at known
  split at known
  case isTrue => cases known; decide
  split at known
  case isTrue => cases known; decide
  split at known
  case isTrue => cases known; decide
  case isFalse => cases known

/-- A safe `fcntl` finds nothing in its way. -/
theorem SafeSet.free (safe : SafeSet table p i ltype) (known : lockOp ltype = some op)
    (lock : has op lockUn = false) : ¬Conflicts table p i op := by
  rw [SafeSet, known] at safe
  exact (if_neg (by simp [lock])).mp safe

theorem SafeSet.single (safe : SafeSet table p i fUnlck) : Single table p i := by
  have unlock : has lockUn lockUn = true := by decide
  rw [SafeSet] at safe
  exact (if_pos unlock).mp safe

theorem posixLock_free (safe : SafeSet table p i ltype) (mode : flags = 0 ∨ flags = lockNb) :
    posixLock memory table p i ltype flags ≠ .sleeps ∧
      ∀ table', posixLock memory table p i ltype flags ≠ .returns table' (.error .eagain) := by
  rw [posixLock]
  split
  case h_2 => exact ⟨nofun, fun _ => nofun⟩
  case h_1 op known =>
    have flagsOf : has (op ||| flags) lockUn = has op lockUn ∧
        has (op ||| flags) lockEx = has op lockEx := by
      rcases mode with rfl | rfl
      · have plain : op ||| 0 = op := BitVec.or_zero
        rw [plain]
        exact ⟨rfl, rfl⟩
      · exact lockOp_or known
    have free : has (op ||| flags) lockUn = false → ¬Conflicts table p i (op ||| flags) := by
      rw [flagsOf.1]
      intro lock
      unfold Conflicts
      rw [flagsOf.2]
      exact safe.free known lock
    refine ⟨fun sleeps => ?_, fun table' failed => ?_⟩
    · obtain ⟨lock, -, conflict⟩ := flockInode_sleeps sleeps
      exact free lock conflict
    · obtain ⟨lock, -, conflict⟩ := flockInode_eagain failed
      exact free lock conflict

theorem posixLock_alone (alone : ExclusiveAlone table)
    (returned : posixLock memory table p i ltype flags = .returns table' reply) :
    ExclusiveAlone table' := by
  rw [posixLock] at returned
  split at returned
  · exact flockInode_alone alone returned
  · obtain ⟨rfl, rfl⟩ := returns.inj returned
    exact alone

theorem perform_alone (alone : ExclusiveAlone table)
    (returned : c.perform memory table p i = .returns table' reply) : ExclusiveAlone table' := by
  cases c with
  | flock op => exact flockInode_alone alone returned
  | getlk =>
    obtain ⟨rfl, rfl⟩ := returns.inj returned
    exact alone
  | setlk ltype | setlkw ltype => exact posixLock_alone alone returned

/-- A safe call that sleeps is a blocking `flock`. -/
theorem perform_sleeps (safe : c.Safe table p i) (sleeps : c.perform memory table p i = .sleeps) :
    ∃ op, c = .flock op ∧ has op lockNb = false := by
  cases c with
  | flock op => exact ⟨op, rfl, (flockInode_sleeps sleeps).2.1⟩
  | getlk => cases sleeps
  | setlk ltype => exact absurd sleeps (posixLock_free safe (.inl rfl)).1
  | setlkw ltype => exact absurd sleeps (posixLock_free safe (.inr rfl)).1

/-- A safe call that fails because it would block is non-blocking. -/
theorem perform_eagain (safe : c.Safe table p i)
    (failed : c.perform memory table p i = .returns table' (.error .eagain)) :
    c.nonBlocking = true := by
  cases c with
  | flock op => exact (flockInode_eagain failed).2.1
  | getlk => rfl
  | setlk ltype => rfl
  | setlkw ltype => exact absurd failed ((posixLock_free safe (.inr rfl)).2 table')

/-- An unlock returns with the first record released. -/
theorem perform_unlocks (unlock : c.unlocks = true) :
    c.perform memory table p i = .returns (releaseFirst table p i) .ok := by
  have posix : ∀ flags : BitVec 32, flags = 0 ∨ flags = lockNb →
      posixLock memory table p i fUnlck flags = .returns (releaseFirst table p i) .ok := by
    rintro flags (rfl | rfl)
    · exact flockInode_unlock (by decide)
    · exact flockInode_unlock (by decide)
  cases c with
  | flock op => exact flockInode_unlock unlock
  | getlk => cases unlock
  | setlk ltype =>
    obtain rfl := of_decide_eq_true unlock
    exact posix 0 (.inl rfl)
  | setlkw ltype =>
    obtain rfl := of_decide_eq_true unlock
    exact posix lockNb (.inr rfl)

theorem Call.Safe.single (safe : c.Safe table p i) (unlock : c.unlocks = true) :
    Single table p i := by
  cases c with
  | flock op => exact safe unlock
  | getlk => cases unlock
  | setlk ltype | setlkw ltype =>
    obtain rfl := of_decide_eq_true unlock
    exact SafeSet.single safe

/-- Releasing the only record. -/
theorem not_holds_releaseFirst (single : Single table p i) :
    ¬Holds (releaseFirst table p i) p i := by
  rintro ⟨ff, member, own⟩
  unfold releaseFirst at member
  unfold Single at single
  induction table with
  | nil => cases member
  | cons head rest ih =>
    by_cases first : head.belongs p i = true
    · rw [eraseP_cons_of_pos first] at member
      rw [countP_cons_of_pos first] at single
      have none : rest.countP (belongs p i) = 0 := by omega
      rw [countP_eq_zero] at none
      exact none ff member own
    · rw [eraseP_cons_of_neg first, mem_cons] at member
      rw [countP_cons_of_neg first] at single
      rcases member with rfl | member
      · exact first own
      · exact ih single member

theorem not_holds_flockReleaseInode (table : Table) (p i : Nat) :
    ¬Holds (flockReleaseInode table p i) p i := by
  rintro ⟨ff, member, own⟩
  rw [flockReleaseInode, mem_filter, own] at member
  exact Bool.false_ne_true member.2

end Calls

/-! ## Steps -/

section Steps

variable {s s' : State} {a : Label} {p i : Nat} {c : Call}

/-- A call that runs, or runs again, settles with what it performs. -/
inductive Settles (s s' : State) (p i : Nat) (c : Call) : Prop
  | intro (memory : Bool) (after : s' = s.settle p i c (c.perform memory s.table p i))

/-- What a step can do to the table, the sleepers and the log. -/
inductive Does (s s' : State) : Label → Prop
  | descriptors {a : Label} (table : s'.table = s.table) (waiting : s'.waiting = s.waiting)
      (log : s'.log = s.log) (silent : releases s a = none) : Does s s' a
  | call {p ufd i : Nat} {c : Call} {memory : Bool} (file : s.fileOf p ufd = some i)
      (settles : Settles s s' p i c) : Does s s' (.call p ufd c memory)
  | badFile {p ufd : Nat} {c : Call} {memory : Bool} (file : s.fileOf p ufd = none)
      (after : s' = { s with log := (c, .error .ebadf) :: s.log }) :
      Does s s' (.call p ufd c memory)
  | retry {p i : Nat} {c : Call} {memory : Bool} (slept : s.waiting p = some (i, c))
      (settles : Settles s s' p i c) : Does s s' (.retry p memory)
  | interrupt {p i : Nat} {c : Call} (slept : s.waiting p = some (i, c))
      (after : s' = s.settle p i c (.returns s.table (.error .eintr))) : Does s s' (.interrupt p)
  | close {p ufd fd : Nat} (file : s.fd? p ufd = some fd) (after : s' = s.close p ufd fd) :
      Does s s' (.close p ufd)

theorem does (taken : step s a = some s') : Does s s' a := by
  cases a with
  | openFile p ufd fd i | fork p child =>
    rw [step, when_eq_some] at taken
    obtain ⟨-, rfl⟩ := taken
    exact .descriptors rfl rfl rfl rfl
  | dup p ufd new =>
    rw [step] at taken
    split at taken
    · obtain ⟨-, rfl⟩ := when_eq_some.mp taken
      exact .descriptors rfl rfl rfl rfl
    · cases taken
  | call p ufd c memory =>
    rw [step] at taken
    split at taken
    case h_1 file =>
      cases taken
      exact .call file ⟨memory, rfl⟩
    case h_2 file =>
      cases taken
      exact .badFile file rfl
    case h_3 => cases taken
  | retry p memory =>
    rw [step] at taken
    split at taken
    case h_1 slept =>
      cases taken
      exact .retry slept ⟨memory, rfl⟩
    case h_2 => cases taken
  | interrupt p =>
    rw [step] at taken
    split at taken
    case h_1 slept =>
      cases taken
      exact .interrupt slept rfl
    case h_2 => cases taken
  | close p ufd =>
    rw [step] at taken
    split at taken
    case h_1 file =>
      cases taken
      exact .close file rfl
    case h_2 => cases taken

theorem close_table (s : State) (p ufd fd : Nat) :
    (s.close p ufd fd).table =
      if s.count fd - 1 ≠ 0 then s.table else flockReleaseInode s.table p (s.inode fd) := by
  unfold State.close
  split <;> rfl

theorem close_rest (s : State) (p ufd fd : Nat) :
    (s.close p ufd fd).waiting = s.waiting ∧ (s.close p ufd fd).log = s.log := by
  unfold State.close
  split <;> exact ⟨rfl, rfl⟩

theorem Settles.alone (alone : ExclusiveAlone s.table) (settles : Settles s s' p i c) :
    ExclusiveAlone s'.table := by
  obtain ⟨memory, rfl⟩ := settles
  cases performed : c.perform memory s.table p i with
  | returns table reply => exact perform_alone alone performed
  | sleeps => exact alone

/-- **An exclusive lock is alone** after every step, safe or not. -/
theorem exclusiveAlone_step (alone : ExclusiveAlone s.table) (taken : step s a = some s') :
    ExclusiveAlone s'.table := by
  cases does taken with
  | descriptors table => exact table ▸ alone
  | call file settles => exact settles.alone alone
  | badFile file after => exact after ▸ alone
  | retry slept settles => exact settles.alone alone
  | interrupt slept after => exact after ▸ alone
  | @close p ufd fd file after =>
    subst after
    rw [close_table]
    split
    · exact alone
    · exact alone.subset (filter_subset_self s.table)

/-- Only a blocking `flock` sleeps. -/
structure Waits (s : State) : Prop where
  asleep : ∀ p i c, s.waiting p = some (i, c) → ∃ op, c = .flock op ∧ has op lockNb = false
  replies : ∀ c reply, (c, reply) ∈ s.log → c.nonBlocking = false → reply ≠ .error .eagain

theorem Waits.modes (waits : Waits s) : Modes s := by
  refine ⟨fun p i c slept => ?_, waits.replies⟩
  obtain ⟨op, rfl, blocking⟩ := waits.asleep p i c slept
  exact blocking

/-- A call that returns is awake, and its reply is in the log. -/
theorem Waits.returns {table : Table} {reply : Reply} (waits : Waits s)
    (fine : reply = .error .eagain → c.nonBlocking = true) :
    Waits (s.settle p i c (.returns table reply)) := by
  refine ⟨fun q j d slept => ?_, fun d other logged blocking failed => ?_⟩
  · have slept : update s.waiting p none q = some (j, d) := slept
    by_cases self : q = p
    · rw [self, update_self] at slept
      cases slept
    · rw [update_of_ne self] at slept
      exact waits.asleep q j d slept
  · have logged : (d, other) ∈ (c, reply) :: s.log := logged
    rcases mem_cons.mp logged with same | logged
    · obtain ⟨rfl, rfl⟩ := Prod.mk.inj same
      rw [fine failed] at blocking
      cases blocking
    · exact waits.replies d other logged blocking failed

theorem Waits.sleeps (waits : Waits s) (blocking : ∃ op, c = .flock op ∧ has op lockNb = false) :
    Waits (s.settle p i c .sleeps) := by
  refine ⟨fun q j d slept => ?_, waits.replies⟩
  have slept : update s.waiting p (some (i, c)) q = some (j, d) := slept
  by_cases self : q = p
  · rw [self, update_self, Option.some.injEq, Prod.mk.injEq] at slept
    exact slept.2 ▸ blocking
  · rw [update_of_ne self] at slept
    exact waits.asleep q j d slept

theorem Waits.settles (waits : Waits s) (asleep : ∀ memory, c.perform memory s.table p i = .sleeps →
      ∃ op, c = .flock op ∧ has op lockNb = false)
    (failed : ∀ memory table, c.perform memory s.table p i = .returns table (.error .eagain) →
      c.nonBlocking = true)
    (settles : Settles s s' p i c) : Waits s' := by
  obtain ⟨memory, rfl⟩ := settles
  cases performed : c.perform memory s.table p i with
  | returns table reply => exact waits.returns fun same => failed memory table (same ▸ performed)
  | sleeps => exact waits.sleeps (asleep memory performed)

theorem waits_step (waits : Waits s) (safe : SafeLabel s a) (taken : step s a = some s') :
    Waits s' := by
  cases does taken with
  | descriptors table waiting log => exact ⟨waiting ▸ waits.asleep, log ▸ waits.replies⟩
  | call file settles =>
    have safe := safe _ file
    exact waits.settles (fun _ => perform_sleeps safe) (fun _ _ => perform_eagain safe) settles
  | badFile file after =>
    subst after
    refine ⟨waits.asleep, fun d other logged blocking => ?_⟩
    rcases mem_cons.mp logged with same | logged
    · obtain ⟨rfl, rfl⟩ := Prod.mk.inj same
      exact nofun
    · exact waits.replies d other logged blocking
  | retry slept settles =>
    -- a sleeper is a blocking `flock`, whatever it finds now
    obtain ⟨op, rfl, blocking⟩ := waits.asleep _ _ _ slept
    refine waits.settles (fun _ _ => ⟨op, rfl, blocking⟩) (fun memory table failed => ?_) settles
    have nonBlocking := (flockInode_eagain failed).2.1
    rw [blocking] at nonBlocking
    cases nonBlocking
  | interrupt slept after => exact after ▸ waits.returns nofun
  | @close p ufd fd file after =>
    subst after
    obtain ⟨waiting, log⟩ := close_rest s p ufd fd
    exact ⟨waiting ▸ waits.asleep, log ▸ waits.replies⟩

/-- A safe unlock or close leaves the process without a lock. -/
theorem not_holds_step (safe : SafeLabel s a) (taken : step s a = some s')
    (released : releases s a = some (p, i)) : ¬Holds s'.table p i := by
  cases does taken with
  | descriptors table waiting log silent =>
    rw [silent] at released
    cases released
  | @call q ufd j c memory file settles =>
    rw [releases, file, Option.ite_none_right_eq_some] at released
    obtain ⟨unlock, same⟩ := released
    cases same
    obtain ⟨memory, rfl⟩ := settles
    rw [perform_unlocks unlock]
    exact not_holds_releaseFirst ((safe i file).single unlock)
  | @badFile q ufd c memory file after =>
    rw [releases, file] at released
    split at released <;> cases released
  | retry => cases released
  | interrupt => cases released
  | @close q ufd fd file after =>
    subst after
    have inode : s.fileOf q ufd = some (s.inode fd) := by rw [State.fileOf, file, Option.map_some]
    rw [releases, inode, Option.bind_some, Option.ite_none_left_eq_some] at released
    obtain ⟨last, same⟩ := released
    cases same
    rw [close_table]
    rcases safe fd file with another | only | noLock
    · exact absurd another last
    · rw [if_neg (by omega)]
      exact not_holds_flockReleaseInode s.table p (s.inode fd)
    · split
      · exact noLock
      · exact not_holds_flockReleaseInode s.table p (s.inode fd)

end Steps

/-! ## Runs -/

/-- No process has taken a lock yet; any files are open. -/
structure Fresh (s : State) : Prop where
  table : s.table = []
  awake : ∀ p, s.waiting p = none
  log : s.log = []

theorem Fresh.waits {s : State} (fresh : Fresh s) : Waits s := by
  refine ⟨fun p i c slept => ?_, fun c reply logged => ?_⟩
  · rw [fresh.awake p] at slept
    cases slept
  · rw [fresh.log] at logged
    cases logged

theorem Fresh.alone {s : State} (fresh : Fresh s) : ExclusiveAlone s.table := by
  rw [fresh.table]
  exact fun _ member => nomatch member

/-- **Locks exclude**, on every run, safe or not. -/
theorem exclusive_alone {start s : State} {labels : List Label} (fresh : Fresh start)
    (ran : run step start labels = some s) : ExclusiveAlone s.table :=
  run_keeps (fun _ _ _ alone taken => exclusiveAlone_step alone taken) fresh.alone ran

/-- **Advisory locks.** After every run of safe steps an exclusive lock is alone on its inode, no
call sleeps or fails against its mode, and a safe unlock or close leaves no lock behind. -/
theorem advisory_locks {start s : State} {labels : List Label} (fresh : Fresh start)
    (safe : Guarded step SafeLabel start labels) (ran : run step start labels = some s) :
    ExclusiveAlone s.table ∧ Modes s ∧
      ∀ a s' p i, SafeLabel s a → step s a = some s' → releases s a = some (p, i) →
        ¬Holds s'.table p i := by
  have waits : Waits s :=
    run_inv (fun _ _ _ waits safe taken => waits_step waits safe taken) fresh.waits safe ran
  have alone := run_keeps (fun _ _ _ alone taken => exclusiveAlone_step alone taken) fresh.alone ran
  exact ⟨alone, waits.modes, fun a s' p i => not_holds_step⟩

/-! ## Poles -/

section Poles

instance (table : Table) (p i : Nat) : Decidable (Holds table p i) := by
  unfold Holds
  infer_instance

instance (table : Table) (p i : Nat) : Decidable (Single table p i) := by
  unfold Single
  infer_instance

instance (table : Table) (p i : Nat) (op : BitVec 32) : Decidable (Conflicts table p i op) := by
  unfold Conflicts
  infer_instance

instance (table : Table) (p i : Nat) (ltype : Int) : Decidable (SafeSet table p i ltype) :=
  match known : lockOp ltype with
  | some op =>
    if un : has op lockUn then
      decidable_of_iff (Single table p i) (by simp [SafeSet, known, un])
    else decidable_of_iff (¬Conflicts table p i op) (by simp [SafeSet, known, un])
  | none => isTrue (by simp [SafeSet, known])

instance (table : Table) (p i : Nat) (c : Call) : Decidable (c.Safe table p i) := by
  cases c <;> unfold Call.Safe <;> infer_instance

instance (s : State) (p ufd fd : Nat) : Decidable (SafeClose s p ufd fd) := by
  unfold SafeClose
  infer_instance

instance (s : State) (a : Label) : Decidable (SafeLabel s a) := by
  cases a <;> unfold SafeLabel <;> infer_instance

/-- No file is open. -/
def quiet : State :=
  { table := [], fds := fun _ => [], inode := fun _ => 0, count := fun _ => 0
    waiting := fun _ => none, log := [] }

theorem quiet_fresh : Fresh quiet := ⟨rfl, fun _ => rfl, rfl⟩

/-- Processes 1 and 2 open the file 7 and lock it against each other; 2 waits for 1. -/
def contendedRun : List Label :=
  [.openFile 1 3 1 7, .openFile 2 3 2 7, .call 1 3 (.flock lockSh) true,
    .call 1 3 (.setlk fWrlck) true, .call 2 3 (.flock (lockSh ||| lockNb)) true,
    .call 2 3 (.flock lockSh) true, .call 1 3 (.setlk fUnlck) true, .retry 2 true]

theorem advisory_locks_contendedRun :
    ∃ s, run step quiet contendedRun = some s ∧ Holds s.table 2 7 ∧ ExclusiveAlone s.table := by
  obtain ⟨s, ran⟩ : ∃ s, run step quiet contendedRun = some s :=
    Option.isSome_iff_exists.mp (by decide +kernel)
  have held : (run step quiet contendedRun).any (fun s => Holds s.table 2 7) = true := by
    decide +kernel
  rw [ran, Option.any_some, decide_eq_true_eq] at held
  exact ⟨s, ran, held, (advisory_locks quiet_fresh (Guarded.of_decide (by decide +kernel)) ran).1⟩

/-- Process 1 shares its lock twice and unlocks once. -/
def relockRun : List Label :=
  [.openFile 1 3 1 7, .call 1 3 (.flock lockSh) true, .call 1 3 (.flock lockSh) true,
    .call 1 3 (.flock lockUn) true]

/-- Process 1 has a child when it locks, and closes the file. -/
def sharedCloseRun : List Label :=
  [.openFile 1 3 1 7, .fork 1 2, .call 1 3 (.flock lockEx) true, .close 1 3]

theorem exclusive_alone_sharedClose :
    ∃ s, run step quiet sharedCloseRun = some s ∧ ExclusiveAlone s.table :=
  exists_run (by decide +kernel) fun _ ran => exclusive_alone quiet_fresh ran

/-- Process 2 asks for the lock that process 1 has. -/
def requestRun (c : Call) : List Label :=
  [.openFile 1 3 1 7, .openFile 2 3 2 7, .call 1 3 (.flock lockEx) true, .call 2 3 c true]

/-- The four ways to break the promise: a second record outlives the unlock, a lock outlives the
close, `F_SETLK` sleeps, `F_SETLKW` fails with `-EWOULDBLOCK`. -/
theorem lock_outlives_unlock :
    (run step quiet relockRun).any (fun s => Holds s.table 1 7) = true ∧
    (run step quiet sharedCloseRun).any (fun s => s.fds 1 = [] ∧ Holds s.table 1 7) = true ∧
    (run step quiet (requestRun (.setlk fWrlck))).any
      (fun s => s.waiting 2 = some (7, .setlk fWrlck)) = true ∧
    (run step quiet (requestRun (.setlkw fWrlck))).any
      (fun s => s.log.head? = some (.setlkw fWrlck, .error .eagain)) = true := by
  decide +kernel

end Poles

end Argentum.Fs.Locks
